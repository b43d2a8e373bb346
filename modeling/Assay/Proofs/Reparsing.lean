import Assay.Proofs.Sources
import Assay.Proofs.WholeNumbers
/-!
# Printing what was read

An expression that was read is read back from its own text exactly when its number literals are finite
(`Constraint.reparse_iff_finite`).  A literal of more than 308 places is read as an infinity, whose text is a name or no
lexeme at all; and whatever text a constraint has, the numbers that it is cut into are finite (`tame_render`), so that
an infinity is never read back.
-/
namespace Assay

/-- What equals a finite double is finite: no finite double stands where the infinities do. -/
theorem Double.isFinite_of_beq {a b : Double} (h : (a == b) = true) (ha : a.isFinite = true) : b.isFinite = true := by
  cases a with
  | finite x =>
    obtain ⟨i, hx, hb⟩ := Double.beq_iff.1 h
    have hlt : x.units < unitsLimit := x.representable.2
    have hu : x.signedUnits.natAbs = x.units := x.natAbs_signedUnits
    cases hx
    cases b with
    | finite y => rfl
    | infinite negative =>
      cases negative <;>
      · have hi := Option.some.inj hb
        rw [← hi] at hu
        simp only [Int.natAbs_neg, Int.natAbs_natCast] at hu
        exact absurd hu.symm (Nat.ne_of_lt hlt)
    | nan => cases hb
  | _ => cases ha

/-- Whether the lexeme is not a number past the largest double. -/
def Lexeme.isFinite : Lexeme → Bool
  | number x => x.isFinite
  | _ => true

/-- The text cannot be cut into lexemes before `tail`, or it is cut into some whose numbers are finite. -/
def ScansFinite (cs tail : List Char) : Prop :=
  (∀ offset, ∃ e, Token.scan offset (cs ++ tail) = .error e) ∨ ∃ ls, ls.all Lexeme.isFinite = true ∧ Scans cs ls tail

theorem ScansFinite.append {cs cs' tail : List Char} (h : ScansFinite cs (cs' ++ tail)) (h' : ScansFinite cs' tail) :
    ScansFinite (cs ++ cs') tail := by
  rcases h with he | ⟨ls, hf, hs⟩
  · refine Or.inl fun offset => ?_
    rw [List.append_assoc]
    exact he offset
  · rcases h' with he | ⟨ls', hf', hs'⟩
    · refine Or.inl fun offset => ?_
      obtain ⟨ts, next, -, ht⟩ := hs offset
      obtain ⟨e, he⟩ := he next
      exact ⟨e, by rw [List.append_assoc, ht, he]; rfl⟩
    · exact Or.inr ⟨ls ++ ls', by rw [List.all_append, hf, hf']; rfl, hs.append hs'⟩

/-- Whatever delimiter follows the text, the numbers that it is cut into are finite. -/
def Tame (s : String) : Prop := ∀ tail, Delimits tail → ScansFinite s.toList tail

namespace Tame

variable {s t : String}

theorem of_spells {ls : List Lexeme} (h : Spells s ls) (hf : ls.all Lexeme.isFinite = true) : Tame s :=
  fun tail ht => Or.inr ⟨ls, hf, h tail ht⟩

theorem name (h : isName s = true) : Tame s := .of_spells (.name h) rfl

/-- **The text of a double holds no infinite number**: that of an infinity is a name, or a minus with no digit. -/
theorem number (x : Double) : Tame x.render := by
  cases x with
  | finite x => exact .of_spells (.number rfl) rfl
  | nan => exact .name (by decide)
  | infinite negative =>
    cases negative with
    | false => exact .name (by decide)
    | true =>
      refine fun tail _ => Or.inl fun offset => ⟨.unexpectedChar '-' offset, ?_⟩
      show Token.scan offset ('-' :: 'i' :: 'n' :: 'f' :: tail) = _
      rw [Token.scan_cons]
      rfl

/-- Two texts around one that begins with a delimiter. -/
theorem join (h : Tame s) (h' : Tame t) (sep : String) (ls : List Lexeme) (hf : ls.all Lexeme.isFinite = true)
    (hs : ∀ tail, Delimits tail → Scans sep.toList ls (t.toList ++ tail)) (hd : ∀ tail, Delimits (sep.toList ++ tail)) :
    Tame (s ++ sep ++ t) := by
  intro tail ht
  rw [String.toList_append, String.toList_append, List.append_assoc]
  exact (h _ (List.append_assoc _ _ _ ▸ hd _)).append (.append (Or.inr ⟨ls, hf, hs tail ht⟩) (h' tail ht))

theorem space (h : Tame s) (h' : Tame t) : Tame (s ++ " " ++ t) :=
  h.join h' " " [] rfl (fun _ _ => Scans.blank (by decide)) fun _ => delimits_cons (by decide)

theorem bar (h : Tame s) (h' : Tame t) : Tame (s ++ " | " ++ t) :=
  h.join h' " | " [.pipe] rfl
    (fun _ _ => (Scans.blank (c := ' ') (by decide)).append
      ((Scans.char (c := '|') rfl).append (Scans.blank (by decide))))
    fun _ => delimits_cons (by decide)

theorem comma (h : Tame s) (h' : Tame t) : Tame (s ++ ", " ++ t) :=
  h.join h' ", " [.comma] rfl (fun _ _ => (Scans.char (c := ',') rfl).append (Scans.blank (by decide)))
    fun _ => delimits_cons (by decide)

/-- Single characters around a text, of which those after it delimit. -/
theorem enclosed (h : Tame s) (before : String) (lsb : List Lexeme) (after : String) (lsa : List Lexeme)
    (hf : (lsb ++ lsa).all Lexeme.isFinite = true) (hb : before.toList.map Lexeme.ofChar? = lsb.map some)
    (ha : after.toList.map Lexeme.ofChar? = lsa.map some)
    (hd : ∀ tail, Delimits tail → Delimits (after.toList ++ tail)) : Tame (before ++ s ++ after) := by
  intro tail ht
  rw [List.all_append, Bool.and_eq_true] at hf
  rw [String.toList_append, String.toList_append]
  exact (ScansFinite.append (Or.inr ⟨lsb, hf.1, Scans.chars hb⟩) (h _ (hd tail ht))).append
    (Or.inr ⟨lsa, hf.2, Scans.chars ha⟩)

theorem brackets (h : Tame s) : Tame (s ++ "[]") := by
  have := h.enclosed "" [] "[]" [.openBracket, .closeBracket] rfl rfl rfl fun tail _ => delimits_cons (by decide)
  simpa using this

theorem group (h : Tame s) : Tame ("(" ++ s ++ ")[]") :=
  h.enclosed "(" [.openParen] ")[]" [.closeParen, .openBracket, .closeBracket] rfl rfl rfl
    fun tail _ => delimits_cons (by decide)

theorem tuple (h : Tame s) : Tame ("[" ++ s ++ "]") :=
  h.enclosed "[" [.openBracket] "]" [.closeBracket] rfl rfl rfl fun tail _ => delimits_cons (by decide)

theorem optional (h : Tame s) : Tame (s ++ "?") := by
  have := h.enclosed "" [] "?" [.question] rfl rfl rfl fun tail _ => delimits_cons (by decide)
  simpa using this

/-- Tame texts between separators that keep two of them tame. -/
theorem intercalate {sep : String} (hsep : ∀ {s t : String}, Tame s → Tame t → Tame (s ++ sep ++ t)) :
    ∀ {texts : List String}, (∀ s ∈ texts, Tame s) → Tame (sep.intercalate texts)
  | [], _ => fun _ _ => Or.inr ⟨[], rfl, Scans.nil⟩
  | [s], h => by
    rw [String.intercalate_singleton]
    exact h s List.mem_cons_self
  | s :: t :: texts, h => by
    rw [String.intercalate_cons_of_ne_nil (List.cons_ne_nil t texts)]
    exact hsep (h s List.mem_cons_self) (intercalate hsep fun u hu => h u (List.mem_cons_of_mem s hu))

end Tame

namespace Constraint

theorem tame_kind (k : Kind) : Tame k.keyword := by
  cases k with
  | integer => exact .of_spells (.suffix (n := "number") (s := "integer") (by decide) (by decide)) rfl
  | _ => exact .name (by decide)

theorem tame_literal (l : Literal) : Tame l.render := by
  cases l with
  | string s => exact .of_spells (.quoted s) rfl
  | number x => exact .number x
  | boolean b => cases b <;> exact .name (by decide)
  | null => exact .name (by decide)

theorem tame_comparator (o : Comparator) : Tame o.symbol := .of_spells (.comparator o) rfl

theorem tame_range (k : Kind) (min max : Option Bound) : Tame (renderRange k min max) := by
  have hop : ∀ b : Bound, Tame b.operator ∧ Tame b.reversed := fun b => by
    rw [b.operator_eq, b.reversed_eq]
    exact ⟨tame_comparator _, tame_comparator _⟩
  cases min with
  | none =>
    cases max with
    | none => exact tame_kind k
    | some hi => exact ((tame_kind k).space (hop hi).1).space (.number hi.value)
  | some lo =>
    cases max with
    | none => exact ((tame_kind k).space (hop lo).2).space (.number lo.value)
    | some hi =>
      unfold renderRange
      dsimp only
      split
      · have he : k.keyword ++ " == " ++ lo.value.render =
            k.keyword ++ " " ++ Comparator.eq.symbol ++ " " ++ lo.value.render := by
          rw [show " == " = " " ++ Comparator.eq.symbol ++ " " by decide]
          simp only [String.append_assoc]
        rw [he]
        exact ((tame_kind k).space (tame_comparator .eq)).space (.number lo.value)
      · have hlo := ((Tame.number lo.value).space (hop lo).1).space (tame_kind k)
        exact (hlo.space (hop hi).1).space (.number hi.value)

mutual

/-- **Whatever its literals are, the text of a constraint is cut into finite numbers**, if its names are names. -/
theorem tame_render : ∀ {c : Constraint}, (∀ n ∈ c.references, isName n = true) → Tame c.render
  | kind k, _ => tame_kind k
  | range k min max, _ => tame_range k min max
  | format f, _ => .of_spells (spells_format f) rfl
  | literal l, _ => tame_literal l
  | union cs, h => by
    rw [render]
    exact .intercalate .bar (tame_renderAll h)
  | array c, h => by
    have hc : Tame c.render := tame_render h
    rw [render]
    split
    · exact hc.group
    · exact hc.brackets
  | tuple cs, h => by
    rw [render]
    exact (Tame.intercalate .comma (tame_renderAll h)).tuple
  | optional c, h => by
    have hc : Tame c.render := tame_render h
    rw [render]
    exact hc.optional
  | reference n, h => .name (h n List.mem_cons_self)

theorem tame_renderAll : ∀ {cs : List Constraint}, (∀ n ∈ referencesAll cs, isName n = true) →
    ∀ s ∈ renderAll cs, Tame s
  | [], _, _, hs => by cases hs
  | c :: cs, h, s, hs => by
    rw [referencesAll, List.forall_mem_append] at h
    rw [renderAll] at hs
    rcases List.mem_cons.1 hs with rfl | hs
    · exact tame_render h.1
    · exact tame_renderAll h.2 s hs

end

variable {isDefined : String → Bool} {c m : Constraint}

theorem exists_tokens_of_parse {e : String} (h : parse isDefined e = .ok c) :
    ∃ ts, Token.ofString e = .ok ts ∧ Grammar.Expression isDefined (ts.map Token.lexeme) c := by
  unfold parse at h
  obtain ⟨ts, hs, ht⟩ := except_bind_eq_ok_iff.1 h
  exact ⟨ts, hs, ofTokens_eq_ok_iff.1 ht⟩

/-- What is read from a tame text has finite literals. -/
theorem finite_of_tame {s : String} (hs : Tame s) (h : parse isDefined s = .ok m) :
    ∀ x, .number x ∈ m.literals → x.isFinite = true := by
  intro x hx
  obtain ⟨ts, hts, he⟩ := exists_tokens_of_parse h
  rcases hs [] delimits_nil with herr | ⟨ls, hf, hls⟩
  · obtain ⟨e, herr⟩ := herr 0
    rw [List.append_nil] at herr
    cases herr.symm.trans hts
  · obtain ⟨ts', hts', rfl⟩ := hls.ofString
    cases hts.symm.trans hts'
    exact List.all_eq_true.1 hf _ (he.drawn.numbers x hx)

mutual

/-- Each literal of a constraint is equal to one of a constraint that equals it. -/
theorem exists_literal_of_beq : ∀ {c d : Constraint}, (c == d) = true →
    ∀ l ∈ d.literals, ∃ l' ∈ c.literals, (l' == l) = true
  | .kind _, _, h, l, hl => by cases beq_iff.1 h; cases hl
  | .range _ _ _, _, h, l, hl => by cases beq_iff.1 h; cases hl
  | .format _, _, h, l, hl => by cases beq_iff.1 h; cases hl
  | .reference _, _, h, l, hl => by cases beq_iff.1 h; cases hl
  | .literal l', _, h, l, hl => by
    cases beq_iff.1 h with
    | literal he =>
      rw [List.mem_singleton.1 hl]
      exact ⟨l', List.mem_singleton.2 rfl, he⟩
  | .union _, _, h, l, hl => by
    cases beq_iff.1 h with
    | union hs => exact exists_literal_of_beqAll hs l hl
  | .array _, _, h, l, hl => by
    cases beq_iff.1 h with
    | array hc => exact exists_literal_of_beq hc l hl
  | .tuple _, _, h, l, hl => by
    cases beq_iff.1 h with
    | tuple hs => exact exists_literal_of_beqAll hs l hl
  | .optional _, _, h, l, hl => by
    cases beq_iff.1 h with
    | optional hc => exact exists_literal_of_beq hc l hl

theorem exists_literal_of_beqAll : ∀ {cs ds : List Constraint}, beqAll cs ds = true →
    ∀ l ∈ literalsAll ds, ∃ l' ∈ literalsAll cs, (l' == l) = true
  | [], [], _, _, hl => by cases hl
  | c :: cs, d :: ds, h, l, hl => by
    obtain ⟨hc, hs⟩ := Bool.and_eq_true_iff.1 h
    rw [literalsAll] at hl
    rw [literalsAll]
    rcases List.mem_append.1 hl with hl | hl
    · obtain ⟨l', hl', he⟩ := exists_literal_of_beq hc l hl
      exact ⟨l', List.mem_append_left _ hl', he⟩
    · obtain ⟨l', hl', he⟩ := exists_literal_of_beqAll hs l hl
      exact ⟨l', List.mem_append_right _ hl', he⟩

end

/-- What was read is well formed and canonical, and the names in it are defined, names of the lexer and no keywords. -/
theorem drawn_of_parse {e : String} (h : parse isDefined e = .ok c) : c.check = .ok () ∧ c.Canonical ∧
    ∀ n ∈ c.references, isName n = true ∧ n ∉ keywords ∧ isDefined n = true := by
  obtain ⟨ts, hts, he⟩ := exists_tokens_of_parse h
  refine ⟨he.check_eq_ok, he.drawn.canonical, fun n hn => ?_⟩
  obtain ⟨hm, hk⟩ := he.drawn.names n hn
  exact ⟨Token.isName_of_scan _ _ hts n hm, hk, he.isDefined_of_mem n hn⟩

/-- What is read back equal is finite. -/
theorem finite_of_reparse (hn : ∀ n ∈ c.references, isName n = true) (hm : parse isDefined c.render = .ok m)
    (he : (m == c) = true) : ∀ x, .number x ∈ c.literals → x.isFinite = true := by
  intro x hx
  obtain ⟨l, hl, hlx⟩ := exists_literal_of_beq he _ hx
  rcases Literal.beq_iff.1 hlx with ⟨rfl, hne⟩ | ⟨y, x', rfl, hx', hyx⟩
  · exact absurd rfl (hne x)
  · rw [Literal.number.inj hx']
    exact Double.isFinite_of_beq hyx (finite_of_tame (tame_render hn) hm y hl)

/-- **What was read is read back from its text exactly when its number literals are finite.** -/
theorem reparse_iff_finite (isDefined : String → Bool) (e : String) (c : Constraint) (h : parse isDefined e = .ok c) :
    (∃ m, parse isDefined c.render = .ok m ∧ (m == c) = true) ↔ ∀ x, .number x ∈ c.literals → x.isFinite = true := by
  obtain ⟨hc, hcan, hn⟩ := drawn_of_parse h
  constructor
  · rintro ⟨m, hm, he⟩
    exact finite_of_reparse (fun n hm => (hn n hm).1) hm he
  · intro hf
    obtain ⟨m, hm, ha⟩ := exists_agrees_render hc hf hn
    exact ⟨m, hm, ha.equal hcan⟩

/-- Users, or one and a half. -/
def usersOrOneAndHalf : Constraint :=
  union [array (reference "user"), literal (.number (.ofDecimal false 15 (-1)))]

theorem parse_usersOrOneAndHalf : parse (· == "user") "user[] | 1.5" = .ok usersOrOneAndHalf := by
  have hu : Spells ("user" ++ "[]") [.identifier "user", .openBracket, .closeBracket] :=
    (Spells.name (by decide)).brackets
  have hx : Spells "1.5" [.number (.ofDecimal false 15 (-1))] := fun tail ht =>
    @Scans.number false ['1'] ['5'] tail (by simp) (List.all_eq_true.1 rfl) ht
  have hs := hu.bar hx
  rw [show "user" ++ "[]" ++ " | " ++ "1.5" = "user[] | 1.5" by decide] at hs
  have huser : Grammar.Operand (· == "user") [.identifier "user", .openBracket, .closeBracket]
      (array (reference "user")) :=
    .array (.atom (.reference "user" rfl (by decide)))
  exact parse_of_spells hs (.required (.terms (.more (.operand huser) (.one (.operand (.atom (.number _)))))))

theorem reparse_iff_finite_usersOrOneAndHalf : parse (· == "user") "user[] | 1.5" = .ok usersOrOneAndHalf ∧
    ∃ m, parse (· == "user") usersOrOneAndHalf.render = .ok m ∧ (m == usersOrOneAndHalf) = true := by
  refine ⟨parse_usersOrOneAndHalf, (reparse_iff_finite _ _ _ parse_usersOrOneAndHalf).2 fun x hx => ?_⟩
  have hx : x = .ofDecimal false 15 (-1) := by simpa [usersOrOneAndHalf, literals, literalsAll] using hx
  rw [hx]
  decide +kernel

/-- Digits spell a number. -/
theorem spells_digits {ds : List Char} (hn : ds ≠ []) (hd : ∀ c ∈ ds, c.isDigit = true) :
    Spells (String.ofList ds) [.number (.ofDecimal false (digitsValue ds) 0)] := by
  intro tail ht
  have hs := @Scans.number false ds [] tail hn (by rwa [List.append_nil]) ht
  rw [List.append_nil] at hs
  rw [String.toList_ofList]
  simpa [fractionText] using hs

/-- A one with 309 zeros. -/
def pastDoubles : List Char := ['1'] ++ List.replicate 309 '0'

theorem spells_pastDoubles : Spells (String.ofList pastDoubles) [.number (.infinite false)] := by
  have hd : ∀ c ∈ pastDoubles, c.isDigit = true := by
    refine List.forall_mem_append.2 ⟨List.all_eq_true.1 rfl, fun c hc => ?_⟩
    rw [List.eq_of_mem_replicate hc]
    decide
  have hv : Double.ofDecimal false (digitsValue pastDoubles) 0 = .infinite false := by
    rw [pastDoubles, digitsValue_append_zeros]
    decide +kernel
  have hn : pastDoubles ≠ [] := List.cons_ne_nil _ _
  rw [← hv]
  exact spells_digits hn hd

/-- **A number past the doubles is not read back**: it is an infinity, whose text is a name. -/
theorem pastDoubles_not_reparsed : ∃ c, parse (fun _ => false) (String.ofList pastDoubles) = .ok c ∧ c.render = "inf" ∧
    ¬ ∃ m, parse (fun _ => false) c.render = .ok m ∧ (m == c) = true := by
  have he : Grammar.Expression (fun _ => false) [.number (.infinite false)] (literal (.number (.infinite false))) :=
    .required (.terms (.one (.operand (.atom (.number _)))))
  refine ⟨_, parse_of_spells spells_pastDoubles he, rfl, ?_⟩
  rintro ⟨m, hm, hmc⟩
  have hf := finite_of_reparse (fun _ hn => by cases hn) hm hmc (.infinite false) (List.mem_singleton.2 rfl)
  cases hf

end Constraint

end Assay
