import Assay.Proofs.References
import Assay.Proofs.RoundTrip
/-!
# Where the parts of an expression come from

An expression that is read is canonical, its numbers are numbers of its text, and the names that it refers to are names
of its text and no keywords (`Grammar.Drawn`).  A name of a text is a name of the lexer, wherever it was cut.
-/
namespace Assay

theorem Lexeme.ne_identifier_of_ofChar? {c : Char} {l : Lexeme} (h : ofChar? c = some l) (n : String) :
    l ≠ .identifier n := by
  rintro rfl
  unfold ofChar? at h
  split at h <;> cases h

/-- What is read as a name goes up to where no name goes on: of all lexemes, names alone begin as they do. -/
theorem Lexeme.read_identifier {offset : Nat} {c : Char} {cs : List Char} {n : String} {k : Nat}
    (h : read offset c cs = .ok (.identifier n, k)) :
    isNameStart c = true ∧ n = String.ofList (c :: cs.takeWhile isNameChar) := by
  unfold read at h
  cases hl : ofChar? c with
  | some l =>
    rw [hl] at h
    cases h
    exact absurd rfl (ne_identifier_of_ofChar? hl n)
  | none =>
    rw [hl] at h
    dsimp only at h
    split_ifs at h
    all_goals try (cases h; done)
    · split at h <;> cases h
    · rename_i hs
      cases h
      exact ⟨hs, rfl⟩

theorem Lexeme.isName_of_read {offset : Nat} {c : Char} {cs : List Char} {n : String} {k : Nat}
    (h : read offset c cs = .ok (.identifier n, k)) : isName n = true := by
  obtain ⟨hs, rfl⟩ := read_identifier h
  unfold isName
  rw [String.toList_ofList]
  exact Bool.and_eq_true_iff.2 ⟨hs, List.all_takeWhile⟩

theorem Token.isName_of_scan {ts : List Token} (cs : List Char) (offset : Nat) (h : scan offset cs = .ok ts) :
    ∀ n, .identifier n ∈ ts.map Token.lexeme → isName n = true := by
  match cs with
  | [] =>
    rw [scan_nil] at h
    cases h
    exact nofun
  | c :: cs =>
    rw [scan_cons] at h
    by_cases hb : Text.isBlank c = true
    · rw [if_pos hb] at h
      exact isName_of_scan cs _ h
    · rw [if_neg hb] at h
      obtain ⟨⟨l, k⟩, hl, h⟩ := Constraint.except_bind_eq_ok_iff.1 h
      obtain ⟨rest, hr, h⟩ := Constraint.except_bind_eq_ok_iff.1 h
      cases h
      intro n hn
      rcases List.mem_cons.1 hn with he | hn
      · rw [show l = .identifier n from he.symm] at hl
        exact Lexeme.isName_of_read hl
      · exact isName_of_scan (cs.drop k) _ hr n hn
termination_by cs.length
decreasing_by
  · simp
  · simp only [List.length_drop, List.length_cons]
    omega

namespace Constraint

theorem mem_literalsAll_iff {l : Literal} {cs : List Constraint} : l ∈ literalsAll cs ↔ ∃ c ∈ cs, l ∈ c.literals := by
  induction cs with
  | nil => simp [literalsAll]
  | cons c cs ih => rw [literalsAll, List.mem_append, ih, List.exists_mem_cons_iff]

end Constraint

namespace Grammar

open Constraint

/-- **What the parts of a constraint that was read from some lexemes are.** -/
structure Drawn (ls : List Lexeme) (c : Constraint) : Prop where
  canonical : c.Canonical
  numbers : ∀ x, .number x ∈ c.literals → .number x ∈ ls
  names : ∀ n ∈ c.references, .identifier n ∈ ls ∧ n ∉ keywords

namespace Drawn

variable {ls ls' : List Lexeme} {c : Constraint} {cs : List Constraint}

theorem mono (h : Drawn ls c) (hs : ls ⊆ ls') : Drawn ls' c :=
  ⟨h.canonical, fun x hx => hs (h.numbers x hx), fun n hn => ⟨hs (h.names n hn).1, (h.names n hn).2⟩⟩

/-- What holds no literal and no name. -/
theorem bare (hc : c.Canonical) (hl : c.literals = []) (hr : c.references = []) : Drawn ls c := by
  refine ⟨hc, ?_, ?_⟩
  · rw [hl]
    intro x hx
    cases hx
  · rw [hr]
    intro n hn
    cases hn

theorem literal {l : Literal} (h : ∀ x, l = .number x → .number x ∈ ls) : Drawn ls (.literal l) :=
  ⟨trivial, fun x hx => h x (List.mem_singleton.1 hx).symm, fun _ hn => by cases hn⟩

theorem array (h : Drawn ls c) : Drawn ls c.array := ⟨h.canonical, h.numbers, h.names⟩

theorem optional (h : Drawn ls c) : Drawn ls c.optional := ⟨h.canonical, h.numbers, h.names⟩

theorem branch (h : Drawn ls c) : ∀ b ∈ c.branches, Drawn ls b := by
  intro b hb
  cases hu : c.isUnion with
  | false =>
    rw [branches_of_not_isUnion hu] at hb
    rw [List.mem_singleton.1 hb]
    exact h
  | true =>
    cases c with
    | union cs =>
      exact ⟨canonicalAll_iff.1 h.canonical.2.2 b hb, fun x hx => h.numbers x (mem_literalsAll_iff.2 ⟨b, hb, hx⟩),
        fun n hn => h.names n (mem_referencesAll_iff.2 ⟨b, hb, hn⟩)⟩
    | _ => cases hu

theorem tuple (h : ∀ c ∈ cs, Drawn ls c) : Drawn ls (.tuple cs) := by
  refine ⟨canonicalAll_iff.2 fun c hc => (h c hc).canonical, fun x hx => ?_, fun n hn => ?_⟩
  · obtain ⟨c, hc, hx⟩ := mem_literalsAll_iff.1 hx
    exact (h c hc).numbers x hx
  · obtain ⟨c, hc, hn⟩ := mem_referencesAll_iff.1 hn
    exact (h c hc).names n hn

/-- The union of constraints that are canonical and tidy is canonical. -/
theorem oneOf (hd : ∀ c ∈ cs, Drawn ls c) (ht : ∀ c ∈ cs, c.Tidy) : Drawn ls (.oneOf cs) := by
  have hb : ∀ b ∈ (cs.flatMap branches).eraseDups, Drawn ls b ∧ b.isUnion = false := fun b hb => by
    obtain ⟨c, hc, hbc⟩ := List.mem_flatMap.1 (mem_of_mem_eraseDups hb)
    exact ⟨(hd c hc).branch b hbc, (ht c hc).plain b hbc⟩
  rcases oneOf_cases cs with ⟨d, he, ho⟩ | ⟨-, ho⟩
  · rw [ho]
    exact (hb d (by rw [he]; exact List.mem_cons_self)).1
  · rw [ho]
    obtain ⟨hcan, hnum, hnam⟩ := tuple fun b h => (hb b h).1
    exact ⟨⟨fun b h => (hb b h).2, unrepeated_eraseDups _, hcan⟩, hnum, hnam⟩

end Drawn

theorem bounds_ne_none (o : Comparator) (x : Double) : (o.bounds x).1 ≠ none ∨ (o.bounds x).2 ≠ none := by
  cases o <;> simp [Comparator.bounds]

variable {isDefined : String → Bool}

mutual

theorem Atom.drawn : ∀ {ls : List Lexeme} {c : Constraint}, Atom isDefined ls c → Drawn ls c
  | _, _, .quoted _ => .literal fun _ h => by cases h
  | _, _, .number x => .literal fun y hy => by
      rw [Literal.number.inj hy]
      exact List.mem_singleton.2 rfl
  | _, _, .yes => .literal fun _ h => by cases h
  | _, _, .no => .literal fun _ h => by cases h
  | _, _, .null => .literal fun _ h => by cases h
  | _, _, .group h => h.drawn.mono (by simp)
  | _, _, .unit => .bare trivial rfl rfl
  | _, _, .tuple h => .tuple fun c hc => (h.drawn c hc).mono (by simp)
  | _, _, .anyString => .bare trivial rfl rfl
  | _, _, .format _ => .bare trivial rfl rfl
  | _, _, .anyNumber => .bare trivial rfl rfl
  | _, _, .integer => .bare trivial rfl rfl
  | _, _, .boolean => .bare trivial rfl rfl
  | _, _, .reference n _ hk => ⟨trivial, fun _ hx => (by cases hx), fun m hm => by
      rw [List.mem_singleton.1 hm]
      exact ⟨List.mem_singleton.2 rfl, hk⟩⟩

theorem Operand.drawn : ∀ {ls : List Lexeme} {c : Constraint}, Operand isDefined ls c → Drawn ls c
  | _, _, .atom h => h.drawn
  | _, _, .array h => (h.drawn.mono (List.subset_append_left _ _)).array

theorem Term.drawn : ∀ {ls : List Lexeme} {c : Constraint}, Term isDefined ls c → Drawn ls c
  | _, _, .operand h => h.drawn
  | _, _, .after o x _ _ => .bare (bounds_ne_none o x) rfl rfl
  | _, _, .before x o _ _ => .bare (bounds_ne_none o.flip x) rfl rfl
  | _, _, .between _ _ _ _ _ _ _ _ => .bare (Or.inl (Option.some_ne_none _)) rfl rfl

theorem Terms.drawn : ∀ {ls : List Lexeme} {cs : List Constraint}, Terms isDefined ls cs → ∀ c ∈ cs, Drawn ls c
  | _, _, .one h => List.forall_mem_singleton.2 h.drawn
  | _, _, .more h hs => List.forall_mem_cons.2
      ⟨h.drawn.mono (List.subset_append_left _ _), fun c hc => (hs.drawn c hc).mono (by simp)⟩

/-- **A union of lexemes is canonical, and made of what they carry.** -/
theorem Union.drawn : ∀ {ls : List Lexeme} {c : Constraint}, Union isDefined ls c → Drawn ls c
  | _, _, .terms h => .oneOf h.drawn h.tidy

theorem Items.drawn : ∀ {ls : List Lexeme} {cs : List Constraint}, Items isDefined ls cs → ∀ c ∈ cs, Drawn ls c
  | _, _, .one h => List.forall_mem_singleton.2 h.drawn
  | _, _, .more h hs => List.forall_mem_cons.2
      ⟨h.drawn.mono (List.subset_append_left _ _), fun c hc => (hs.drawn c hc).mono (by simp)⟩

end

theorem Expression.drawn {ls : List Lexeme} {c : Constraint} : Expression isDefined ls c → Drawn ls c
  | .required h => h.drawn
  | .optional h => (h.drawn.mono (List.subset_append_left _ _)).optional

theorem Expression.check_eq_ok {ls : List Lexeme} {c : Constraint} : Expression isDefined ls c → c.check = .ok ()
  | .required h => h.tidy.check_eq_ok
  | .optional h => h.tidy.checked

end Grammar

end Assay
