import Assay.Proofs.Equality
import Assay.Proofs.Inhabitants
import Mathlib.Data.List.Forall2
/-!
# Equal shapes and their unions

`==` on shapes compares the doubles of literals as numbers, so equal shapes need not be identical but have the same
values (`Conforms.of_beq`).  So `oneOf`, which opens unions by one level and leaves out what equals an earlier
alternative, has the values that some alternative has (`conforms_oneOf_iff`).
-/
namespace Assay.Shape

/-- **The value conforms to the shape**, given the values of each name: it inhabits the shape, and its objects may have
any keys besides those that are declared. -/
abbrev Conforms (named : String → Json → Prop) (s : Shape) (x : Json) : Prop := Inhabits named (fun _ => True) s x

section Equality

/-- How shapes are equal: by the same constructor and equal parts. -/
inductive EqualParts : Shape → Shape → Prop
  | unknown : EqualParts unknown unknown
  | string : EqualParts string string
  | number : EqualParts number number
  | integer : EqualParts integer integer
  | boolean : EqualParts boolean boolean
  | null : EqualParts null null
  | literal {l l' : Literal} : (l == l') = true → EqualParts (literal l) (literal l')
  | union {ss ss' : List Shape} : beqAll ss ss' = true → EqualParts (union ss) (union ss')
  | array {s s' : Shape} : (s == s') = true → EqualParts (array s) (array s')
  | tuple {ss ss' : List Shape} : beqAll ss ss' = true → EqualParts (tuple ss) (tuple ss')
  | object {fs fs' : List ShapeField} : beqFields fs fs' = true → EqualParts (object fs) (object fs')
  | named (n : String) : EqualParts (named n) (named n)

theorem beq_iff {s t : Shape} : (s == t) = true ↔ EqualParts s t := by
  show Shape.beq s t = true ↔ _
  constructor
  · intro h
    unfold Shape.beq at h
    split at h
    · exact .unknown
    · exact .string
    · exact .number
    · exact .integer
    · exact .boolean
    · exact .null
    · exact .literal h
    · exact .union h
    · exact .array h
    · exact .tuple h
    · exact .object h
    · rw [beq_iff_eq.1 h]
      exact .named _
    · cases h
  · intro h
    unfold Shape.beq
    cases h with
    | literal h => exact h
    | union h => exact h
    | array h => exact h
    | tuple h => exact h
    | object h => exact h
    | named n => exact beq_self_eq_true n
    | _ => rfl

/-- Fields of one name are equal when their shapes and their markers are. -/
theorem beqFields_cons_iff {f f' : ShapeField} {fs fs' : List ShapeField} : beqFields (f :: fs) (f' :: fs') = true ↔
    (f.name = f'.name ∧ (f.shape == f'.shape) = true ∧ f.optional = f'.optional) ∧ beqFields fs fs' = true := by
  obtain ⟨_, _, _⟩ := f
  obtain ⟨_, _, _⟩ := f'
  rw [beqFields, Bool.and_eq_true, Bool.and_eq_true, Bool.and_eq_true, beq_iff_eq, beq_iff_eq, and_assoc, and_assoc,
    and_assoc, and_assoc]
  rfl

mutual

theorem beq_symm : ∀ {s t : Shape}, (s == t) = true → (t == s) = true
  | .unknown, _, h => by cases beq_iff.1 h; rfl
  | .string, _, h => by cases beq_iff.1 h; rfl
  | .number, _, h => by cases beq_iff.1 h; rfl
  | .integer, _, h => by cases beq_iff.1 h; rfl
  | .boolean, _, h => by cases beq_iff.1 h; rfl
  | .null, _, h => by cases beq_iff.1 h; rfl
  | .named _, _, h => by cases beq_iff.1 h; exact h
  | .literal _, _, h => by
    cases beq_iff.1 h with
    | literal hl => exact beq_iff.2 (.literal (Literal.beq_symm hl))
  | .union _, _, h => by
    cases beq_iff.1 h with
    | union hs => exact beq_iff.2 (.union (beqAll_symm hs))
  | .array _, _, h => by
    cases beq_iff.1 h with
    | array hs => exact beq_iff.2 (.array (beq_symm hs))
  | .tuple _, _, h => by
    cases beq_iff.1 h with
    | tuple hs => exact beq_iff.2 (.tuple (beqAll_symm hs))
  | .object _, _, h => by
    cases beq_iff.1 h with
    | object hs => exact beq_iff.2 (.object (beqFields_symm hs))

theorem beqAll_symm : ∀ {ss ts : List Shape}, beqAll ss ts = true → beqAll ts ss = true
  | [], [], _ => rfl
  | _ :: _, _ :: _, h => by
    obtain ⟨hs, h⟩ := Bool.and_eq_true_iff.1 h
    exact Bool.and_eq_true_iff.2 ⟨beq_symm hs, beqAll_symm h⟩

theorem beqFields_symm : ∀ {fs gs : List ShapeField}, beqFields fs gs = true → beqFields gs fs = true
  | [], [], _ => rfl
  | ⟨_, _, _⟩ :: _, _ :: _, h => by
    obtain ⟨⟨hn, hs, ho⟩, h⟩ := beqFields_cons_iff.1 h
    exact beqFields_cons_iff.2 ⟨⟨hn.symm, beq_symm hs, ho.symm⟩, beqFields_symm h⟩

end

mutual

theorem beq_trans : ∀ {s t u : Shape}, (s == t) = true → (t == u) = true → (s == u) = true
  | .unknown, _, _, h, h' => by cases beq_iff.1 h; exact h'
  | .string, _, _, h, h' => by cases beq_iff.1 h; exact h'
  | .number, _, _, h, h' => by cases beq_iff.1 h; exact h'
  | .integer, _, _, h, h' => by cases beq_iff.1 h; exact h'
  | .boolean, _, _, h, h' => by cases beq_iff.1 h; exact h'
  | .null, _, _, h, h' => by cases beq_iff.1 h; exact h'
  | .named _, _, _, h, h' => by cases beq_iff.1 h; exact h'
  | .literal _, _, _, h, h' => by
    cases beq_iff.1 h with
    | literal hl =>
      cases beq_iff.1 h' with
      | literal hl' => exact beq_iff.2 (.literal (Literal.beq_trans hl hl'))
  | .union _, _, _, h, h' => by
    cases beq_iff.1 h with
    | union hs =>
      cases beq_iff.1 h' with
      | union hs' => exact beq_iff.2 (.union (beqAll_trans hs hs'))
  | .array _, _, _, h, h' => by
    cases beq_iff.1 h with
    | array hs =>
      cases beq_iff.1 h' with
      | array hs' => exact beq_iff.2 (.array (beq_trans hs hs'))
  | .tuple _, _, _, h, h' => by
    cases beq_iff.1 h with
    | tuple hs =>
      cases beq_iff.1 h' with
      | tuple hs' => exact beq_iff.2 (.tuple (beqAll_trans hs hs'))
  | .object _, _, _, h, h' => by
    cases beq_iff.1 h with
    | object hs =>
      cases beq_iff.1 h' with
      | object hs' => exact beq_iff.2 (.object (beqFields_trans hs hs'))

theorem beqAll_trans : ∀ {ss ts us : List Shape}, beqAll ss ts = true → beqAll ts us = true → beqAll ss us = true
  | [], [], [], _, _ => rfl
  | _ :: _, _ :: _, _ :: _, h, h' => by
    obtain ⟨hs, h⟩ := Bool.and_eq_true_iff.1 h
    obtain ⟨hs', h'⟩ := Bool.and_eq_true_iff.1 h'
    exact Bool.and_eq_true_iff.2 ⟨beq_trans hs hs', beqAll_trans h h'⟩

theorem beqFields_trans : ∀ {fs gs ks : List ShapeField}, beqFields fs gs = true → beqFields gs ks = true →
    beqFields fs ks = true
  | [], [], [], _, _ => rfl
  | ⟨_, _, _⟩ :: _, ⟨_, _, _⟩ :: _, ⟨_, _, _⟩ :: _, h, h' => by
    obtain ⟨⟨hn, hs, ho⟩, h⟩ := beqFields_cons_iff.1 h
    obtain ⟨⟨hn', hs', ho'⟩, h'⟩ := beqFields_cons_iff.1 h'
    exact beqFields_cons_iff.2 ⟨⟨hn.trans hn', beq_trans hs hs', ho.trans ho'⟩, beqFields_trans h h'⟩

end

/-- Equal lists of shapes are equal place by place. -/
theorem beqAll_iff : ∀ {ss ss' : List Shape}, beqAll ss ss' = true ↔
    ss.length = ss'.length ∧ ∀ (i : Nat) (s s' : Shape), ss[i]? = some s → ss'[i]? = some s' → (s == s') = true
  | [], [] => by simp [beqAll]
  | [], _ :: _ => by simp [beqAll]
  | _ :: _, [] => by simp [beqAll]
  | s :: ss, s' :: ss' => by
    rw [beqAll, Bool.and_eq_true, beqAll_iff, forall_places_cons, List.length_cons, List.length_cons,
      Nat.add_right_cancel_iff, and_left_comm]
    rfl

theorem beqAll_iff_forall₂ : ∀ {ss ss' : List Shape}, beqAll ss ss' = true ↔
    List.Forall₂ (fun s s' => (s == s') = true) ss ss'
  | [], [] => by simp [beqAll]
  | [], _ :: _ => by simp [beqAll]
  | _ :: _, [] => by simp [beqAll]
  | s :: ss, s' :: ss' => by
    rw [beqAll, Bool.and_eq_true, beqAll_iff_forall₂, List.forall₂_cons]
    rfl

theorem exists_of_beqAll {ss ss' : List Shape} (h : beqAll ss ss' = true) {s : Shape} (hs : s ∈ ss) :
    ∃ s' ∈ ss', (s == s') = true := by
  obtain ⟨hl, h⟩ := beqAll_iff.1 h
  obtain ⟨i, hi⟩ := List.mem_iff_getElem?.1 hs
  obtain ⟨s', hi'⟩ := exists_getElem? hl hi
  exact ⟨s', List.mem_of_getElem? hi', h i s s' hi hi'⟩

/-- Every field of the one list has an equal field in the other. -/
theorem exists_of_beqFields : ∀ {fs fs' : List ShapeField}, beqFields fs fs' = true → ∀ f' ∈ fs',
    ∃ f ∈ fs, f.name = f'.name ∧ (f.shape == f'.shape) = true ∧ f.optional = f'.optional
  | [], [], _, _, hf' => nomatch hf'
  | f :: fs, g' :: fs', h, f', hf' => by
    obtain ⟨⟨hn, hs, ho⟩, h⟩ := beqFields_cons_iff.1 h
    rcases List.mem_cons.1 hf' with rfl | hf'
    · exact ⟨f, List.mem_cons_self, hn, hs, ho⟩
    · obtain ⟨f, hf, he⟩ := exists_of_beqFields h f' hf'
      exact ⟨f, List.mem_cons_of_mem _ hf, he⟩

end Equality

section Unions

/-- What `oneOf` makes of some shapes: the only distinct alternative, or a union of them. -/
theorem oneOf_cases (ss : List Shape) :
    (∃ s, (ss.flatMap branches).eraseDups = [s] ∧ oneOf ss = s) ∨
      ((ss.flatMap branches).eraseDups.length ≠ 1 ∧ oneOf ss = union (ss.flatMap branches).eraseDups) := by
  unfold oneOf
  split
  · rename_i s h
    exact Or.inl ⟨s, h, rfl⟩
  · rename_i h
    exact Or.inr ⟨fun hl => (List.length_eq_one_iff.1 hl).elim h, rfl⟩

variable {named : String → Json → Prop} {x : Json}

/-- **Equal shapes have the same values.** -/
theorem Conforms.of_beq {s : Shape} (h : s.Conforms named x) : ∀ {t : Shape}, (s == t) = true →
    t.Conforms named x := by
  induction h with
  | unknown x => intro t he; cases beq_iff.1 he; exact .unknown x
  | string s => intro t he; cases beq_iff.1 he; exact .string s
  | number n => intro t he; cases beq_iff.1 he; exact .number n
  | integer hn => intro t he; cases beq_iff.1 he; exact .integer hn
  | boolean b => intro t he; cases beq_iff.1 he; exact .boolean b
  | null => intro t he; cases beq_iff.1 he; exact .null
  | named hx => intro t he; cases beq_iff.1 he; exact .named hx
  | literal hl =>
    intro t he
    cases beq_iff.1 he with
    | literal he => exact .literal (by rw [← Literal.admits_of_beq he]; exact hl)
  | union hs _ ih =>
    intro t he
    cases beq_iff.1 he with
    | union he =>
      obtain ⟨s', hs', he⟩ := exists_of_beqAll he hs
      exact .union hs' (ih he)
  | array _ ih =>
    intro t he
    cases beq_iff.1 he with
    | array he => exact .array fun y hy => ih y hy he
  | tuple hl _ ih =>
    intro t he
    cases beq_iff.1 he with
    | tuple he =>
      obtain ⟨hlen, he⟩ := beqAll_iff.1 he
      refine .tuple (hlen.symm.trans hl) fun i s' y hs' hy => ?_
      obtain ⟨s, hs⟩ := exists_getElem? hlen.symm hs'
      exact ih i s y hs hy (he i s s' hs hs')
  | object _ absent _ ih =>
    intro t he
    cases beq_iff.1 he with
    | object he =>
      refine .object (fun f' hf' y hy => ?_) (fun f' hf' hy => ?_) fun _ _ _ => trivial
      · obtain ⟨f, hf, hn, hs, -⟩ := exists_of_beqFields he f' hf'
        exact ih f hf y (hn ▸ hy) hs
      · obtain ⟨f, hf, hn, -, ho⟩ := exists_of_beqFields he f' hf'
        rw [← ho]
        exact absent f hf (hn ▸ hy)

theorem conforms_union_iff {ss : List Shape} : (union ss).Conforms named x ↔ ∃ s ∈ ss, s.Conforms named x :=
  ⟨fun | .union hs h => ⟨_, hs, h⟩, fun ⟨_, hs, h⟩ => .union hs h⟩

/-- The branches of a shape have its values. -/
theorem exists_branches_iff (s : Shape) : (∃ b ∈ s.branches, b.Conforms named x) ↔ s.Conforms named x := by
  cases s with
  | union ss => exact conforms_union_iff.symm
  | _ => simp [branches]

/-- **`oneOf` has the values that some alternative has.** -/
theorem conforms_oneOf_iff {ss : List Shape} : (oneOf ss).Conforms named x ↔ ∃ s ∈ ss, s.Conforms named x := by
  have hdistinct : (oneOf ss).Conforms named x ↔ ∃ b ∈ (ss.flatMap branches).eraseDups, b.Conforms named x := by
    rcases oneOf_cases ss with ⟨s, hs, ho⟩ | ⟨-, ho⟩
    · rw [ho, hs]
      simp
    · rw [ho, conforms_union_iff]
  rw [hdistinct]
  constructor
  · rintro ⟨b, hb, hx⟩
    obtain ⟨s, hs, hb⟩ := List.mem_flatMap.1 (mem_of_mem_eraseDups hb)
    exact ⟨s, hs, (exists_branches_iff s).1 ⟨b, hb, hx⟩⟩
  · rintro ⟨s, hs, hx⟩
    obtain ⟨b, hb, hx⟩ := (exists_branches_iff s).2 hx
    obtain ⟨a, ha, he⟩ := exists_mem_eraseDups (List.mem_flatMap.2 ⟨s, hs, hb⟩)
    rcases he with rfl | he
    · exact ⟨b, ha, hx⟩
    · exact ⟨a, ha, hx.of_beq he⟩

/-- A union is accepted alternative by alternative, whatever accepts it. -/
theorem accepts_union_iff {a : Shape} {bs : List Shape} :
    a.accepts (union bs) = true ↔ ∀ b ∈ bs, a.accepts b = true := by
  rw [← acceptsAll_iff]
  cases a <;> simp [accepts, acceptsAll_iff]

/-- A shape that accepts some shapes accepts what `oneOf` makes of them. -/
theorem accepts_oneOf {a : Shape} {ss : List Shape} (h : ∀ s ∈ ss, a.accepts s = true) :
    a.accepts (oneOf ss) = true := by
  have hb : ∀ b ∈ (ss.flatMap branches).eraseDups, a.accepts b = true := by
    intro b hb
    obtain ⟨s, hs, hb⟩ := List.mem_flatMap.1 (mem_of_mem_eraseDups hb)
    cases s with
    | union bs => exact accepts_union_iff.1 (h _ hs) b hb
    | _ => exact List.mem_singleton.1 hb ▸ h _ hs
  rcases oneOf_cases ss with ⟨s, hs, ho⟩ | ⟨-, ho⟩
  · rw [ho]
    exact hb s (hs ▸ List.mem_cons_self)
  · rw [ho]
    exact accepts_union_iff.2 hb

end Unions

end Assay.Shape
