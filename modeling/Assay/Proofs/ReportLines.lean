import Assay.Proofs.Decision
import Assay.Proofs.Diagnosis
/-!
# The lines of a report

A report is described by one line for each violation exactly when nothing in them has a line break
(`Validator.describe_lines`).  What a violation shows of a value never has one, since JSON escapes it
(`Json.onOneLine_render`).  The keys of a path are shown as they are: those that the schema declares are on one line if
the schema is, and an undeclared key is whatever the value has there (`Tree.Diagnosis.declared`).
-/
namespace Assay

/-- The pieces of a text between its line breaks. -/
def lines (s : String) : List String := (s.toList.splitOn '\n').map String.ofList

/-- The text has no line break. -/
def OnOneLine (s : String) : Prop := '\n' ∉ s.toList

instance (s : String) : Decidable (OnOneLine s) := inferInstanceAs (Decidable (_ ∉ _))

section Lines

variable {s t : String} {texts : List String}

theorem lines_eq_singleton (h : OnOneLine s) : lines s = [s] := by
  unfold lines
  rw [List.splitOn_eq_singleton h, List.map_singleton, String.ofList_toList]

theorem lines_append_break (s t : String) : lines (s ++ "\n" ++ t) = lines s ++ lines t := by
  unfold lines
  have hb : (s ++ "\n" ++ t).toList = s.toList ++ '\n' :: t.toList := by simp
  rw [hb, List.splitOn_append_cons_self, List.map_append]

/-- **The lines of texts that are put below each other are the lines of each.** -/
theorem lines_intercalate (h : texts ≠ []) : lines ("\n".intercalate texts) = texts.flatMap lines := by
  induction texts with
  | nil => exact absurd rfl h
  | cons s texts ih =>
    by_cases ht : texts = []
    · rw [ht, String.intercalate_singleton]
      simp
    · rw [String.intercalate_cons_of_ne_nil ht, lines_append_break, ih ht, List.flatMap_cons]

/-- The pieces of a list between its `c` have no `c`. -/
theorem not_mem_of_mem_splitOn {c : Char} {cs piece : List Char} (h : piece ∈ cs.splitOn c) : c ∉ piece := by
  induction cs generalizing piece with
  | nil =>
    rw [List.splitOn_nil, List.mem_singleton] at h
    rw [h]
    exact List.not_mem_nil
  | cons d cs ih =>
    rw [List.splitOn_cons_eq_if_modifyHead] at h
    split at h
    · rcases List.mem_cons.1 h with rfl | h
      · exact List.not_mem_nil
      · exact ih h
    · rename_i hd
      obtain ⟨first, rest, hsplit⟩ := List.exists_cons_of_ne_nil (List.splitOn_ne_nil c cs)
      rw [hsplit, List.modifyHead_cons] at h
      rw [hsplit] at ih
      rcases List.mem_cons.1 h with rfl | h
      · intro hm
        rcases List.mem_cons.1 hm with rfl | hm
        · exact hd (beq_self_eq_true c)
        · exact ih List.mem_cons_self hm
      · exact ih (List.mem_cons_of_mem _ h)

theorem onOneLine_of_mem_lines (h : t ∈ lines s) : OnOneLine t := by
  obtain ⟨piece, hp, rfl⟩ := List.mem_map.1 h
  rw [OnOneLine, String.toList_ofList]
  exact not_mem_of_mem_splitOn hp

/-- Texts below each other make one line each exactly when each is on one line. -/
theorem flatMap_lines_eq_iff : texts.flatMap lines = texts ↔ ∀ s ∈ texts, OnOneLine s := by
  constructor
  · intro h s hs
    rw [← h] at hs
    obtain ⟨t, -, ht⟩ := List.mem_flatMap.1 hs
    exact onOneLine_of_mem_lines ht
  · intro h
    induction texts with
    | nil => rfl
    | cons s texts ih =>
      obtain ⟨hs, hrest⟩ := List.forall_mem_cons.1 h
      rw [List.flatMap_cons, lines_eq_singleton hs, ih hrest, List.singleton_append]

@[simp] theorem onOneLine_append : OnOneLine (s ++ t) ↔ OnOneLine s ∧ OnOneLine t := by
  simp [OnOneLine]

@[simp] theorem onOneLine_ofList {cs : List Char} : OnOneLine (String.ofList cs) ↔ '\n' ∉ cs := by
  simp [OnOneLine]

theorem onOneLine_intercalate (hs : OnOneLine s) : OnOneLine (s.intercalate texts) ↔ ∀ t ∈ texts, OnOneLine t := by
  induction texts with
  | nil => simp [OnOneLine]
  | cons t texts ih =>
    by_cases ht : texts = []
    · simp [ht]
    · rw [String.intercalate_cons_of_ne_nil ht, List.forall_mem_cons, onOneLine_append, onOneLine_append, ih]
      simp [hs]

theorem not_mem_toDigits (n : Nat) : '\n' ∉ Nat.toDigits 10 n := fun h => by
  have hd := Nat.isDigit_of_mem_toDigits (by decide) (by decide) h
  cases hd

@[simp] theorem onOneLine_decimalDigits (n : Nat) : OnOneLine (decimalDigits n) :=
  onOneLine_ofList.2 (not_mem_toDigits n)

end Lines

section Values

namespace DecimalStyle

theorem onOneLine_plain {style : DecimalStyle} (hs : OnOneLine style.wholeMark) (d : Decimal) :
    OnOneLine (style.plain d) := by
  have hdigits := not_mem_toDigits d.coefficient
  have hzeros : ∀ n, '\n' ∉ List.replicate n '0' := fun n h => by cases List.eq_of_mem_replicate h
  unfold plain
  dsimp only
  split
  · simp only [onOneLine_append, onOneLine_ofList, List.mem_append, not_or]
    exact ⟨⟨hdigits, hzeros _⟩, hs⟩
  split
  · simp only [onOneLine_append, onOneLine_ofList]
    exact ⟨⟨fun h => hdigits (List.mem_of_mem_take h), by decide⟩, fun h => hdigits (List.mem_of_mem_drop h)⟩
  · simp only [onOneLine_append, onOneLine_ofList, List.mem_append, not_or]
    exact ⟨by decide, hzeros _, hdigits⟩

theorem onOneLine_scientific (d : Decimal) (leading : Int) : OnOneLine (scientific d leading) := by
  have hdigits := not_mem_toDigits d.coefficient
  have hsign : OnOneLine (if leading < 0 then "e-" else "e+") := by split <;> decide
  unfold scientific
  dsimp only
  rw [onOneLine_append, onOneLine_append]
  refine ⟨⟨?_, hsign⟩, onOneLine_decimalDigits _⟩
  split
  · decide
  · rename_i c hc
    rw [hc] at hdigits
    simpa [OnOneLine] using hdigits
  · rename_i c rest _ hc
    rw [hc] at hdigits
    simpa [OnOneLine] using hdigits

theorem onOneLine_render {style : DecimalStyle} (hs : OnOneLine style.wholeMark) (x : FiniteDouble) :
    OnOneLine (style.render x) := by
  unfold render
  dsimp only
  rw [onOneLine_append]
  constructor
  · split <;> decide
  split
  · exact onOneLine_plain hs _
  · exact onOneLine_scientific _ _

end DecimalStyle

theorem Number.onOneLine_render (n : Number) : OnOneLine n.render := by
  cases n with
  | integer n fits =>
    rw [Number.render, onOneLine_append]
    exact ⟨by split <;> decide, onOneLine_decimalDigits _⟩
  | double x => exact DecimalStyle.onOneLine_render (by decide) x

namespace Json

theorem onOneLine_escape (c : Char) : OnOneLine (escape c) := by
  have hhex : ∀ n < 16, hexDigit n ≠ '\n' := by decide
  unfold escape
  split
  · decide
  split
  · decide
  split
  · decide
  split
  · decide
  split
  · decide
  rename_i hbreak
  split
  · decide
  split
  · decide
  split
  · refine onOneLine_append.2 ⟨by decide, onOneLine_ofList.2 fun h => ?_⟩
    rcases List.mem_cons.1 h with h | h
    · exact hhex _ (by omega) h.symm
    · exact hhex _ (by omega) (List.mem_singleton.1 h).symm
  · simpa [OnOneLine, eq_comm] using hbreak

/-- **A quoted text is on one line**, whatever the text is. -/
theorem onOneLine_quote (s : String) : OnOneLine (quote s) := by
  unfold quote
  rw [onOneLine_append, onOneLine_append]
  refine ⟨⟨by decide, fun h => ?_⟩, by decide⟩
  rw [String.toList_join] at h
  obtain ⟨e, he, hm⟩ := List.mem_flatMap.1 h
  obtain ⟨c, -, rfl⟩ := List.mem_map.1 he
  exact onOneLine_escape c hm

mutual

/-- **The text of a value is on one line.** -/
theorem onOneLine_render : ∀ x : Json, OnOneLine x.render
  | .null => by decide
  | .bool true => by decide
  | .bool false => by decide
  | .number n => n.onOneLine_render
  | .string s => onOneLine_quote s
  | .array items => by
    rw [render, onOneLine_append, onOneLine_append, onOneLine_intercalate (by decide)]
    exact ⟨⟨by decide, onOneLine_renderAll items⟩, by decide⟩
  | .object entries => by
    rw [render, onOneLine_append, onOneLine_append, onOneLine_intercalate (by decide)]
    exact ⟨⟨by decide, onOneLine_renderEntries entries⟩, by decide⟩

theorem onOneLine_renderAll : ∀ items : List Json, ∀ s ∈ renderAll items, OnOneLine s
  | [] => nofun
  | x :: items => by
    rw [renderAll, List.forall_mem_cons]
    exact ⟨onOneLine_render x, onOneLine_renderAll items⟩

theorem onOneLine_renderEntries (entries : List (String × Json)) : ∀ s ∈ renderEntries entries, OnOneLine s := by
  cases entries with
  | nil => exact nofun
  | cons e entries =>
    obtain ⟨k, x⟩ := e
    rw [renderEntries, List.forall_mem_cons, onOneLine_append, onOneLine_append]
    exact ⟨⟨⟨onOneLine_quote k, by decide⟩, onOneLine_render x⟩, onOneLine_renderEntries entries⟩

end

theorem onOneLine_summary (x : Json) : OnOneLine x.summary := by
  unfold summary
  dsimp only
  split
  · exact onOneLine_render x
  · rw [onOneLine_append, onOneLine_ofList]
    exact ⟨fun h => onOneLine_render x (List.mem_of_mem_take h), by decide⟩

end Json

end Values

theorem Path.onOneLine_render {p : Path} : OnOneLine p.render ↔ ∀ k, .key k ∈ p → OnOneLine k := by
  unfold render
  rw [onOneLine_intercalate (by decide), List.forall_mem_map]
  constructor
  · exact fun h k hk => h _ hk
  · intro h s hs
    cases s with
    | key k => exact h k hs
    | index i => exact onOneLine_decimalDigits i

/-- A violation is on one line exactly when its texts and the keys on its path are. -/
theorem Violation.onOneLine_render {e : Violation} :
    OnOneLine e.render ↔ (∀ k, .key k ∈ e.path → OnOneLine k) ∧ OnOneLine e.expected ∧ OnOneLine e.actual := by
  have hstart : OnOneLine (if e.path.isRoot then "(root)" else e.path.render) ↔ OnOneLine e.path.render := by
    cases e.path with
    | nil => decide
    | cons s p => rfl
  have hexpected : OnOneLine "expected " := by decide
  have hgot : OnOneLine ", got " := by decide
  have hcolon : OnOneLine ": " := by decide
  unfold render message
  simp only [onOneLine_append, hstart, Path.onOneLine_render, hexpected, hgot, hcolon, and_true, true_and]

namespace Tree

mutual

/-- The texts of a tree that reports show: the names of its fields and the constraints at its leaves. -/
def texts : Tree → List String
  | leaf c => [c.render]
  | object fields _ => textsFields fields
  | array t => texts t
  | tuple ts => textsEach ts

def textsFields : List Field → List String
  | [] => []
  | ⟨name, _, t⟩ :: fields => name :: (texts t ++ textsFields fields)

def textsEach : List Tree → List String
  | [] => []
  | t :: ts => texts t ++ textsEach ts

end

/-- No text of the tree has a line break. -/
def Unbroken (t : Tree) : Prop := ∀ s ∈ t.texts, OnOneLine s

instance (t : Tree) : Decidable t.Unbroken := inferInstanceAs (Decidable (∀ s ∈ t.texts, _))

theorem unbroken_leaf {c : Constraint} : (leaf c).Unbroken ↔ OnOneLine c.render := List.forall_mem_singleton

theorem unbroken_object {fields : List Field} {policy : Policy} :
    (object fields policy).Unbroken ↔ ∀ f ∈ fields, OnOneLine f.name ∧ f.node.Unbroken := by
  show (∀ s ∈ textsFields fields, OnOneLine s) ↔ _
  induction fields with
  | nil => simp [textsFields]
  | cons f fields ih =>
    obtain ⟨name, optional, t⟩ := f
    rw [textsFields, List.forall_mem_cons, List.forall_mem_append, List.forall_mem_cons, ih, and_assoc]
    rfl

theorem unbroken_tuple {ts : List Tree} : (tuple ts).Unbroken ↔ ∀ t ∈ ts, t.Unbroken := by
  show (∀ s ∈ textsEach ts, OnOneLine s) ↔ _
  induction ts with
  | nil => simp [textsEach]
  | cons t ts ih =>
    rw [textsEach, List.forall_mem_append, List.forall_mem_cons, ih]
    rfl

/-- The text of a constraint contains those of the constraints in it. -/
theorem onOneLine_item {c : Constraint} (h : OnOneLine c.array.render) : OnOneLine c.render := by
  rw [Constraint.render] at h
  split at h
  · exact (onOneLine_append.1 (onOneLine_append.1 h).1).2
  · exact (onOneLine_append.1 h).1

theorem onOneLine_place {cs : List Constraint} (h : OnOneLine (Constraint.tuple cs).render) :
    ∀ c ∈ cs, OnOneLine c.render := by
  have hall : ∀ s ∈ Constraint.renderAll cs, OnOneLine s := by
    rw [Constraint.render, onOneLine_append, onOneLine_append, onOneLine_intercalate (by decide)] at h
    exact h.1.2
  clear h
  induction cs with
  | nil => exact nofun
  | cons c cs ih =>
    rw [Constraint.renderAll, List.forall_mem_cons] at hall
    exact List.forall_mem_cons.2 ⟨hall.1, ih hall.2⟩

theorem onOneLine_expected {t : Tree} (h : t.Unbroken) : OnOneLine t.expected := by
  cases t with
  | leaf c => exact unbroken_leaf.1 h
  | object fields policy => exact (by decide : OnOneLine "object")
  | array t => exact (by decide : OnOneLine "array")
  | tuple ts => exact onOneLine_append.2 ⟨by decide, onOneLine_decimalDigits _⟩

/-- The tree of a part, unless its key is not declared. -/
def Part.tree? : Part → Option Tree
  | checked t _ => some t
  | missing t => some t
  | extra _ => none

/-- **An unbroken tree has unbroken parts**, under keys without line breaks. -/
theorem HasPart.unbroken {t u : Tree} {x : Json} {s : Segment} {part : Part} (h : HasPart t x s part)
    (hu : part.tree? = some u) (ht : t.Unbroken) : u.Unbroken ∧ ∀ k, s = .key k → OnOneLine k := by
  cases h with
  | item hts hi _ =>
    cases hu
    refine ⟨?_, nofun⟩
    rcases places?_cases hts hi with ⟨c, rfl, rfl⟩ | ⟨cs, c, rfl, hc, rfl⟩ | rfl | rfl
    · exact unbroken_leaf.2 (onOneLine_item (unbroken_leaf.1 ht))
    · exact unbroken_leaf.2 (onOneLine_place (unbroken_leaf.1 ht) c (List.mem_of_getElem? hc))
    · exact ht
    · exact unbroken_tuple.1 ht _ (List.mem_of_getElem? hi)
  | field hf _ =>
    cases hu
    obtain ⟨hname, hnode⟩ := unbroken_object.1 ht _ hf
    exact ⟨hnode, fun k hk => Segment.key.inj hk ▸ hname⟩
  | missing hf _ _ =>
    cases hu
    obtain ⟨hname, hnode⟩ := unbroken_object.1 ht _ hf
    exact ⟨hnode, fun k hk => Segment.key.inj hk ▸ hname⟩
  | extra _ _ => cases hu

end Tree

/-- **What a violation shows of the schema is on one line**: so is what it expects, and every key on its path but an
undeclared one at its end. -/
structure Violation.Unbroken (e : Violation) : Prop where
  expected : OnOneLine e.expected
  keys : ∀ k, .key k ∈ e.path → OnOneLine k ∨ e.rule = .extraField ∧ e.path.last? = some (.key k)

namespace Violation.Unbroken

variable {e : Violation}

theorem of_path (hp : e.path = []) (h : OnOneLine e.expected) : e.Unbroken := by
  refine ⟨h, fun k hk => ?_⟩
  rw [hp] at hk
  cases hk

theorem under {s : Segment} (h : e.Unbroken) (hs : ∀ k, s = .key k → OnOneLine k) : (e.under s).Unbroken := by
  refine ⟨h.expected, fun k hk => ?_⟩
  rcases List.mem_cons.1 hk with hk | hk
  · exact Or.inl (hs k hk.symm)
  · refine (h.keys k hk).imp id fun ⟨hr, hl⟩ => ⟨hr, ?_⟩
    show (s :: e.path).getLast? = _
    rw [List.getLast?_cons, show e.path.getLast? = _ from hl]
    rfl

end Violation.Unbroken

namespace Tree

variable {defs : Definitions} {limit : Nat} {t : Tree}

theorem onOneLine_tupleMismatch (length : Nat) (x : Json) :
    OnOneLine (tupleMismatch length x).expected ∧ OnOneLine (tupleMismatch length x).actual := by
  refine ⟨onOneLine_append.2 ⟨by decide, onOneLine_decimalDigits _⟩, ?_⟩
  cases x with
  | array items => exact onOneLine_append.2 ⟨by decide, onOneLine_decimalDigits _⟩
  | _ => exact Json.onOneLine_summary _

/-- A mismatch is with a tuple's length, or with the whole tree. -/
theorem Mismatch.oneLine {x : Json} {e : Violation} (h : Mismatch t x e) :
    OnOneLine e.actual ∧ (t.Unbroken → e.Unbroken) := by
  cases h with
  | @tuple length _ _ =>
    obtain ⟨hexpected, hactual⟩ := onOneLine_tupleMismatch length x
    exact ⟨hactual, fun _ => .of_path rfl hexpected⟩
  | whole _ => exact ⟨x.onOneLine_summary, fun ht => .of_path rfl (onOneLine_expected ht)⟩

/-- **What is shown of a value is on one line, and so is what is shown of an unbroken schema.** -/
theorem Diagnosis.oneLine {check : Json → List Violation} (h : Diagnosis defs limit t check) : ∀ x, ∀ e ∈ check x,
    OnOneLine e.actual ∧ ((∀ d ∈ defs, d.2.Unbroken) → t.Unbroken → e.Unbroken) := by
  induction h with
  | @parts t allow check _ _ ih =>
    intro x e he
    rcases List.mem_append.1 he with he | he
    · obtain ⟨hactual, hexpected⟩ := (mismatch_of_mem he).oneLine
      exact ⟨hactual, fun _ => hexpected⟩
    · obtain ⟨⟨s, part⟩, hp, he⟩ := List.mem_flatMap.1 he
      obtain ⟨e', he', rfl⟩ := List.mem_map.1 he
      have hpart := hasPart_of_mem hp
      cases part with
      | checked u y =>
        obtain ⟨hactual, hexpected⟩ := ih x s u y hpart y e' he'
        refine ⟨hactual, fun hd ht => ?_⟩
        obtain ⟨hu, hs⟩ := hpart.unbroken rfl ht
        exact (hexpected hd hu).under hs
      | missing u =>
        obtain rfl := List.mem_singleton.1 he'
        refine ⟨(by decide : OnOneLine "missing"), fun _ ht => ?_⟩
        obtain ⟨hu, hs⟩ := hpart.unbroken rfl ht
        exact (Violation.Unbroken.of_path rfl (onOneLine_expected hu)).under hs
      | extra y =>
        obtain rfl := List.mem_singleton.1 he'
        have hexpected : OnOneLine "absent (undeclared key)" := by decide
        refine ⟨y.onOneLine_summary, fun _ _ => ⟨hexpected, fun k hk => Or.inr ⟨rfl, ?_⟩⟩⟩
        rw [List.mem_singleton.1 hk]
        rfl
  | optional _ ih =>
    intro x e he
    obtain ⟨hactual, hexpected⟩ := ih x e he
    refine ⟨hactual, fun hd ht => hexpected hd (unbroken_leaf.2 ?_)⟩
    exact (onOneLine_append.1 (unbroken_leaf.1 ht)).1
  | definition hl _ ih =>
    intro x e he
    obtain ⟨hactual, hexpected⟩ := ih x e he
    exact ⟨hactual, fun hd _ => hexpected hd (hd _ (mem_of_lookup hl))⟩
  | unknown _ =>
    intro x e he
    obtain rfl := List.mem_singleton.1 he
    refine ⟨x.onOneLine_summary, fun _ ht => .of_path rfl ?_⟩
    have hname := unbroken_leaf.1 ht
    exact onOneLine_append.2 ⟨onOneLine_append.2 ⟨by decide, hname⟩, by decide⟩
  | tooDeep _ =>
    intro x e he
    obtain rfl := List.mem_singleton.1 he
    refine ⟨onOneLine_append.2 ⟨by decide, onOneLine_decimalDigits _⟩, fun _ ht => .of_path rfl ?_⟩
    have hname := unbroken_leaf.1 ht
    exact onOneLine_append.2 ⟨onOneLine_append.2 ⟨onOneLine_append.2 ⟨hname, by decide⟩, onOneLine_decimalDigits _⟩,
      by decide⟩

end Tree

theorem Report.lines_describe (r : Report) : lines r.describe = r.toList.flatMap fun e => lines e.render := by
  unfold Report.describe
  rw [lines_intercalate (by simp [Report.toList]), List.flatMap_map]

namespace Validator

/-- No text of the schema has a line break. -/
def Unbroken (v : Validator) : Prop := v.root.Unbroken ∧ ∀ d ∈ v.scope, d.2.Unbroken

/-- **When a report has one line for each violation.**  Splitting the description of a report at its line breaks gives
the text of each violation in turn exactly when no key on their paths and nothing that they expect has a line break;
what is shown of the value never has one.  If the texts of the schema are on one line, this depends on nothing but the
undeclared keys that are reported. -/
theorem describe_lines {v : Validator} {x : Json} {r : Report} (h : v.validate x = .invalid r) :
    (∀ e ∈ r.toList, OnOneLine e.actual) ∧
    (lines r.describe = r.toList.map Violation.render ↔
      ∀ e ∈ r.toList, (∀ k, .key k ∈ e.path → OnOneLine k) ∧ OnOneLine e.expected) ∧
    (v.Unbroken → (lines r.describe = r.toList.map Violation.render ↔
      ∀ e ∈ r.toList, e.rule = .extraField → ∀ k, e.path.last? = some (.key k) → OnOneLine k)) := by
  have hlines := v.diagnosis.oneLine x
  rw [violations_of_validate_invalid h] at hlines
  have hiff : lines r.describe = r.toList.map Violation.render ↔
      ∀ e ∈ r.toList, (∀ k, .key k ∈ e.path → OnOneLine k) ∧ OnOneLine e.expected := by
    rw [r.lines_describe, ← List.flatMap_map, flatMap_lines_eq_iff, List.forall_mem_map]
    refine forall₂_congr fun e he => ?_
    rw [Violation.onOneLine_render, and_iff_left (hlines e he).1]
  refine ⟨fun e he => (hlines e he).1, hiff, fun hv => hiff.trans ?_⟩
  refine forall₂_congr fun e he => ?_
  have hu := (hlines e he).2 hv.2 hv.1
  constructor
  · exact fun he _ k hk => he.1 k (List.mem_of_getLast? hk)
  · refine fun hextra => ⟨fun k hk => ?_, hu.expected⟩
    rcases hu.keys k hk with hk | ⟨hr, hl⟩
    · exact hk
    · exact hextra hr k hl

/-- An object without any key. -/
def noKeys : Validator := ⟨.object [] .reject, none, 100⟩

theorem describe_lines_noKeys :
    ∃ r, noKeys.validate (.object [("stray", .null)]) = .invalid r ∧
      lines r.describe = ["stray: expected absent (undeclared key), got null"] := by
  refine ⟨_, rfl, ?_⟩
  have hiff := (describe_lines (v := noKeys) (x := .object [("stray", .null)]) rfl).2.2 ⟨by decide, nofun⟩
  refine (hiff.2 fun e he _ k hk => ?_).trans (by decide)
  obtain rfl := List.mem_singleton.1 he
  cases hk
  decide

/-- **An undeclared key with a line break makes two lines of one violation.** -/
theorem undeclared_key_breaks_line : compile (.object [] (some .reject)) = .ok noKeys ∧
    ∃ r, noKeys.validate (.object [("a\nb", .null)]) = .invalid r ∧ r.length = 1 ∧
      lines r.describe = ["a", "b: expected absent (undeclared key), got null"] := by
  exact ⟨rfl, _, rfl, rfl, by decide⟩

end Validator

end Assay
