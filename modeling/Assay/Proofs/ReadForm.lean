import Assay.Proofs.Reparsing
import Assay.Proofs.WellFormed
/-!
# What reading leaves

A constraint that was read is well formed all the way down (`Constraint.wellFormed_of_parse`): what the grammar makes is
canonical and passes its check, and both go over to every constraint inside it.  So the check at the end of reading
refuses nothing, and reading without it is the same reading (`Constraint.ofTokens_eq_readTokens`).
-/
namespace Assay

namespace Constraint

mutual

/-- **Nothing inside a canonical constraint is roundabout.** -/
theorem canonical_of_mem_nodes : ∀ {c : Constraint}, c.Canonical → ∀ u ∈ c.nodes, u.Canonical
  | kind _, h, u, hu => by rw [List.mem_singleton.1 hu]; exact h
  | range _ _ _, h, u, hu => by rw [List.mem_singleton.1 hu]; exact h
  | format _, h, u, hu => by rw [List.mem_singleton.1 hu]; exact h
  | literal _, h, u, hu => by rw [List.mem_singleton.1 hu]; exact h
  | reference _, h, u, hu => by rw [List.mem_singleton.1 hu]; exact h
  | optional c, h, u, hu => by
    rcases List.mem_cons.1 hu with rfl | hu
    · exact h
    · exact canonical_of_mem_nodes (c := c) h u hu
  | array c, h, u, hu => by
    rcases List.mem_cons.1 hu with rfl | hu
    · exact h
    · exact canonical_of_mem_nodes (c := c) h u hu
  | union cs, h, u, hu => by
    rcases List.mem_cons.1 hu with rfl | hu
    · exact h
    · exact canonical_of_mem_nodesAll (canonicalAll_iff.1 h.2.2) u hu
  | tuple cs, h, u, hu => by
    rcases List.mem_cons.1 hu with rfl | hu
    · exact h
    · exact canonical_of_mem_nodesAll (canonicalAll_iff.1 h) u hu

theorem canonical_of_mem_nodesAll : ∀ {cs : List Constraint}, (∀ c ∈ cs, c.Canonical) →
    ∀ u ∈ nodesAll cs, u.Canonical
  | c :: cs, h, u, hu => by
    rw [nodesAll] at hu
    rcases List.mem_append.1 hu with hu | hu
    · exact canonical_of_mem_nodes (h c List.mem_cons_self) u hu
    · exact canonical_of_mem_nodesAll (fun d hd => h d (List.mem_cons_of_mem _ hd)) u hu

end

/-- **A constraint as reading leaves it**, where names that `isDefined` accepts are references. -/
structure WellFormed (isDefined : String → Bool) (c : Constraint) : Prop where
  /-- Below an outermost optional marker there is no other. -/
  marker : ∀ d, optional d ∉ c.splitOptional.1.nodes
  unions : ∀ cs, union cs ∈ c.nodes → 2 ≤ cs.length ∧ Unrepeated cs ∧ ∀ d ∈ cs, d.isUnion = false
  ranges : ∀ k min max, range k min max ∈ c.nodes → (min ≠ none ∨ max ≠ none) ∧ RangeFits k min max
  references : ∀ name, reference name ∈ c.nodes → name ∉ keywords ∧ isDefined name = true

/-- What is no marker stands below the marker. -/
theorem mem_nodes_splitOptional {c u : Constraint} (hu : u ∈ c.nodes) (ho : u.isOptional = false) :
    u ∈ c.splitOptional.1.nodes := by
  cases c with
  | optional c =>
    rcases List.mem_cons.1 hu with rfl | hu
    · cases ho
    · exact hu
  | _ => exact hu

variable {isDefined : String → Bool}

theorem wellFormed_of_parse {e : String} {c : Constraint} (h : parse isDefined e = .ok c) : c.WellFormed isDefined := by
  obtain ⟨hcheck, hcanonical, hnames⟩ := drawn_of_parse h
  have hinner := checkInner_of_mem_nodes (checkInner_splitOptional hcheck)
  have hnodes := canonical_of_mem_nodes hcanonical
  refine ⟨fun d hd => ?_, fun cs hm => ?_, fun k min max hm => ?_, fun name hm => ?_⟩
  · cases hinner _ hd
  · obtain ⟨hplain, hdistinct, -⟩ := hnodes _ hm
    have hc := hinner _ (mem_nodes_splitOptional hm rfl)
    exact ⟨(checkInner_union_eq_ok_iff.1 hc).1, hdistinct, hplain⟩
  · have hc := hinner _ (mem_nodes_splitOptional hm rfl)
    exact ⟨hnodes _ hm, checkRange_eq_ok_iff.1 hc⟩
  · obtain ⟨-, hk, hd⟩ := hnames name (c.mem_references_iff.2 hm)
    exact ⟨hk, hd⟩

/-- The reading of a list of tokens, without the check at its end. -/
def readTokens (isDefined : String → Bool) (ts : List Token) : Except ConstraintError Constraint :=
  if ts.isEmpty then .error .empty
  else do
    let (c, r) ← readUnion isDefined ts
    match r.1 with
    | [] => .ok c
    | [⟨.question, _⟩] => .ok c.optional
    | ⟨.question, _⟩ :: ⟨.question, offset⟩ :: _ => .error (.misplacedOptional offset)
    | ⟨.question, offset⟩ :: _ => .error (.misplacedOptional offset)
    | t :: _ => .error (t.unexpected .endOfExpression)

/-- What is read as a union passes the check, with a marker and without. -/
theorem check_of_readUnion {ts : List Token} {c : Constraint} {r : Fewer ts} (h : readUnion isDefined ts = .ok (c, r)) :
    c.check = .ok () ∧ c.optional.check = .ok () := by
  obtain ⟨rest, hlt⟩ := r
  obtain ⟨used, -, hu⟩ := union_of_reads ⟨hlt, h⟩
  exact ⟨hu.tidy.check_eq_ok, hu.tidy.checked⟩

/-- **The check at the end of reading refuses nothing.** -/
theorem ofTokens_eq_readTokens (isDefined : String → Bool) (ts : List Token) :
    ofTokens isDefined ts = readTokens isDefined ts := by
  unfold ofTokens readTokens
  split
  · rfl
  cases h : readUnion isDefined ts with
  | error e => rfl
  | ok p =>
    obtain ⟨c, r⟩ := p
    obtain ⟨hc, ho⟩ := check_of_readUnion h
    simp only [bind, Except.bind, pure, Except.pure]
    split <;> simp_all

/-- **Everything that is read is well formed**, and the check at the end never fails: reading without it gives the same
result, whatever the tokens are. -/
theorem parse_wellFormed (isDefined : String → Bool) (e : String) :
    (∀ c, parse isDefined e = .ok c → c.WellFormed isDefined) ∧
      parse isDefined e = (Token.ofString e >>= readTokens isDefined) := by
  refine ⟨fun c h => wellFormed_of_parse h, ?_⟩
  unfold parse
  simp only [ofTokens_eq_readTokens]

/-- Perhaps a list, of users and nulls. -/
def usersOrNulls : Constraint := optional (array (union [reference "user", literal .null]))

/-- The second of two equal alternatives is left out. -/
theorem parse_usersOrNulls : parse (· == "user") "(user | null | user)[]?" = .ok usersOrNulls := by
  have huser : Spells "user" [.identifier "user"] := .name (by decide)
  have hnull : Spells "null" [.identifier "null"] := .name (by decide)
  have hs := ((huser.bar hnull).bar huser).group.optional
  have ht : Grammar.Term (· == "user") [.identifier "user"] (reference "user") :=
    .operand (.atom (.reference "user" rfl (by decide)))
  have hu : Grammar.Union (· == "user") _ (union [reference "user", literal .null]) :=
    .terms (.more ht (.more (.operand (.atom .null)) (.one ht)))
  exact parse_of_spells hs (.optional (.terms (.one (.operand (.array (.atom (.group hu)))))))

theorem parse_wellFormed_usersOrNulls :
    parse (· == "user") "(user | null | user)[]?" = .ok usersOrNulls ∧ usersOrNulls.WellFormed (· == "user") :=
  ⟨parse_usersOrNulls, (parse_wellFormed (· == "user") _).1 _ parse_usersOrNulls⟩

end Constraint

end Assay
