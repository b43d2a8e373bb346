import Assay.Proofs.Conformance
import Assay.Proofs.WellFormed
/-!
# Acceptance does not read how unions are written

Acceptance takes the accepted shape apart into the alternatives that are no unions (`atoms`), at whatever depth they
stand, and asks the accepting shape about each of them (`accepts_iff_atoms`).  An atom meets a union through one of its
alternatives, and equal shapes accept alike and are accepted alike (`accepts_congr`); so what `oneOf` opens, leaves out
or collapses is never missed (`accepts_oneOf_eq`).  Atoms are also what carries reflexivity: a union is not accepted by
any one of its alternatives, but each of its atoms is (`accepts_self`).
-/
namespace Assay

/-- Equal doubles are whole together. -/
theorem Double.isIntegral_of_beq {x y : Double} (h : (x == y) = true) (hx : x.isIntegral = true) :
    y.isIntegral = true := by
  cases x with
  | finite d =>
    have hp : some d.signedUnits = y.place? := Double.place?_eq_of_beq h
    have hd : d.units < unitsLimit := d.representable.2
    have hu : d.signedUnits.natAbs = d.units := d.natAbs_signedUnits
    cases y with
    | finite e =>
      have he : d.signedUnits = e.signedUnits := Option.some.inj hp
      show e.isIntegral = true
      rw [FiniteDouble.isIntegral_iff_signedUnits_dvd, ← he]
      exact FiniteDouble.isIntegral_iff_signedUnits_dvd.1 hx
    | infinite negative =>
      cases negative <;> have he := Option.some.inj hp <;> omega
    | nan => cases hp
  | _ => cases hx

namespace Shape

section Atoms

def isUnion : Shape → Bool
  | union _ => true
  | _ => false

mutual

/-- The alternatives that are no unions, through unions inside unions, and of anything else itself alone. -/
def atoms : Shape → List Shape
  | union ss => atomsAll ss
  | s => [s]

def atomsAll : List Shape → List Shape
  | [] => []
  | s :: ss => atoms s ++ atomsAll ss

end

theorem mem_atomsAll_iff {p : Shape} : ∀ {ss : List Shape}, p ∈ atomsAll ss ↔ ∃ s ∈ ss, p ∈ s.atoms
  | [] => by simp [atomsAll]
  | s :: ss => by rw [atomsAll, List.mem_append, mem_atomsAll_iff, List.exists_mem_cons_iff]

mutual

theorem isUnion_of_mem_atoms : ∀ {s p : Shape}, p ∈ s.atoms → p.isUnion = false
  | .union ss, p, h => isUnion_of_mem_atomsAll (show p ∈ atomsAll ss from h)
  | .unknown, _, h | .string, _, h | .number, _, h | .integer, _, h | .boolean, _, h | .null, _, h | .literal _, _, h
  | .array _, _, h | .tuple _, _, h | .object _, _, h | .named _, _, h => by rw [List.mem_singleton.1 h]; rfl

theorem isUnion_of_mem_atomsAll : ∀ {ss : List Shape} {p : Shape}, p ∈ atomsAll ss → p.isUnion = false
  | _ :: _, _, h => by
    rcases List.mem_append.1 h with h | h
    · exact isUnion_of_mem_atoms h
    · exact isUnion_of_mem_atomsAll h

end

variable {a c p : Shape} {ss : List Shape}

mutual

/-- **A shape is accepted atom by atom.** -/
theorem accepts_iff_atoms : ∀ (c : Shape), a.accepts c = true ↔ ∀ p ∈ c.atoms, a.accepts p = true
  | .union cs => accepts_union_iff.trans (acceptsAll_iff_atoms cs)
  | .unknown | .string | .number | .integer | .boolean | .null | .literal _ | .array _ | .tuple _ | .object _
  | .named _ => by rw [atoms, List.forall_mem_singleton]; nofun

theorem acceptsAll_iff_atoms : ∀ (cs : List Shape),
    (∀ c ∈ cs, a.accepts c = true) ↔ ∀ p ∈ atomsAll cs, a.accepts p = true
  | [] => by simp [atomsAll]
  | c :: cs => by
    rw [atomsAll, List.forall_mem_append, List.forall_mem_cons, accepts_iff_atoms c, acceptsAll_iff_atoms cs]

end

/-- What is no union is accepted by a union through one of its alternatives. -/
theorem union_accepts_iff (hp : p.isUnion = false) : (union ss).accepts p = true ↔ ∃ s ∈ ss, s.accepts p = true := by
  rw [← anyAccepts_iff]
  cases p with
  | union ps => cases hp
  | _ => rw [accepts.eq_def]

/-- A union accepts what each of its atoms meets in one of its alternatives. -/
theorem union_accepts_iff_atoms : (union ss).accepts c = true ↔ ∀ p ∈ c.atoms, ∃ s ∈ ss, s.accepts p = true := by
  rw [accepts_iff_atoms]
  exact forall₂_congr fun p hp => union_accepts_iff (isUnion_of_mem_atoms hp)

/-- The branches of a shape accept together what it accepts, one atom at a time. -/
theorem exists_branches_accepts_iff (hp : p.isUnion = false) (s : Shape) :
    (∃ b ∈ s.branches, b.accepts p = true) ↔ s.accepts p = true := by
  cases s with
  | union ss => exact (union_accepts_iff hp).symm
  | _ => simp [branches]

end Atoms

section Congruence

/-- Identical or equal shapes.  A shape with a NaN is only the former. -/
def Alike (s t : Shape) : Prop := s = t ∨ (s == t) = true

/-- Fields of one name and one marker with shapes that are alike. -/
def AlikeFields (f g : ShapeField) : Prop := f.name = g.name ∧ Alike f.shape g.shape ∧ f.optional = g.optional

/-- How shapes are alike: by the same constructor and parts that are. -/
inductive AlikeParts : Shape → Shape → Prop
  | unknown : AlikeParts unknown unknown
  | string : AlikeParts string string
  | number : AlikeParts number number
  | integer : AlikeParts integer integer
  | boolean : AlikeParts boolean boolean
  | null : AlikeParts null null
  | literal {l l' : Literal} : l = l' ∨ (l == l') = true → AlikeParts (literal l) (literal l')
  | union {ss ss' : List Shape} : List.Forall₂ Alike ss ss' → AlikeParts (union ss) (union ss')
  | array {s s' : Shape} : Alike s s' → AlikeParts (array s) (array s')
  | tuple {ss ss' : List Shape} : List.Forall₂ Alike ss ss' → AlikeParts (tuple ss) (tuple ss')
  | object {fs fs' : List ShapeField} : List.Forall₂ AlikeFields fs fs' → AlikeParts (object fs) (object fs')
  | named (n : String) : AlikeParts (named n) (named n)

theorem Alike.refl (s : Shape) : Alike s s := Or.inl rfl

theorem Alike.symm {s t : Shape} (h : Alike s t) : Alike t s := by
  rcases h with rfl | h
  · exact Alike.refl s
  · exact Or.inr (beq_symm h)

theorem forall₂_of_beqFields {fs gs : List ShapeField} (h : beqFields fs gs = true) :
    List.Forall₂ AlikeFields fs gs := by
  induction fs generalizing gs with
  | nil =>
    cases gs with
    | nil => exact .nil
    | cons => cases h
  | cons f fs ih =>
    cases gs with
    | nil =>
      cases f
      cases h
    | cons g gs =>
      obtain ⟨⟨hn, hs, ho⟩, h⟩ := beqFields_cons_iff.1 h
      exact .cons ⟨hn, Or.inr hs, ho⟩ (ih h)

theorem Alike.parts {s t : Shape} (h : Alike s t) : AlikeParts s t := by
  rcases h with rfl | h
  · cases s with
    | literal l => exact .literal (Or.inl rfl)
    | union ss => exact .union (List.forall₂_same.2 fun s _ => Alike.refl s)
    | array s => exact .array (Alike.refl s)
    | tuple ss => exact .tuple (List.forall₂_same.2 fun s _ => Alike.refl s)
    | object fs => exact .object (List.forall₂_same.2 fun f _ => ⟨rfl, Alike.refl f.shape, rfl⟩)
    | _ => constructor
  · cases beq_iff.1 h with
    | literal h => exact .literal (Or.inr h)
    | union h => exact .union ((beqAll_iff_forall₂.1 h).imp fun _ _ => Or.inr)
    | array h => exact .array (Or.inr h)
    | tuple h => exact .tuple ((beqAll_iff_forall₂.1 h).imp fun _ _ => Or.inr)
    | object h => exact .object (forall₂_of_beqFields h)
    | _ => constructor

/-- Lists that are related place by place: the other end of a place. -/
theorem exists_getElem?_of_forall₂ {α β : Type} {R : α → β → Prop} {b : β} {as : List α} {bs : List β}
    (h : List.Forall₂ R as bs) : ∀ {i : Nat}, bs[i]? = some b → ∃ a, as[i]? = some a ∧ R a b := by
  induction h with
  | nil => intro i hb; cases hb
  | @cons a b' as bs hab _ ih =>
    intro i hb
    cases i with
    | zero => cases hb; exact ⟨a, rfl, hab⟩
    | succ i => exact ih hb

theorem exists_mem_of_forall₂ {α β : Type} {R : α → β → Prop} {b : β} {as : List α} {bs : List β}
    (h : List.Forall₂ R as bs) (hb : b ∈ bs) : ∃ a ∈ as, R a b := by
  obtain ⟨i, hi⟩ := List.mem_iff_getElem?.1 hb
  obtain ⟨a, ha, hab⟩ := exists_getElem?_of_forall₂ h hi
  exact ⟨a, List.mem_of_getElem? ha, hab⟩

/-- In lists of fields that are alike, a name is found in neither or in fields that are alike. -/
theorem find?_alike (name : String) {fs gs : List ShapeField} (h : List.Forall₂ AlikeFields fs gs) :
    (fs.find? (·.name == name) = none ∧ gs.find? (·.name == name) = none) ∨
      ∃ f g, fs.find? (·.name == name) = some f ∧ gs.find? (·.name == name) = some g ∧ AlikeFields f g := by
  induction h with
  | nil => exact Or.inl ⟨rfl, rfl⟩
  | @cons f g fs gs hfg _ ih =>
    rw [List.find?_cons, List.find?_cons, hfg.1]
    cases g.name == name with
    | true => exact Or.inr ⟨f, g, rfl, rfl, hfg⟩
    | false => exact ih

theorem Alike.isUnion_eq {s t : Shape} (h : Alike s t) : s.isUnion = t.isUnion := by
  cases h.parts <;> rfl

/-- A literal is accepted with whatever is alike. -/
theorem accepts_literal_of_alike {a a' : Shape} {l l' : Literal} (h : a.acceptsLiteral l = true) (ha : Alike a a')
    (hl : l = l' ∨ (l == l') = true) : a'.accepts (literal l') = true := by
  have hnumber : l = l' ∨ ∃ x y, l = .number x ∧ l' = .number y ∧ (x == y) = true := by
    rcases hl with rfl | hl
    · exact Or.inl rfl
    · exact (Literal.beq_iff.1 hl).imp_left And.left
  unfold acceptsLiteral at h
  split at h
  · cases ha.parts with
    | @literal m m' hm =>
      have hml : (m' == l) = true := by
        rcases hm with rfl | hm
        · exact h
        · exact Literal.beq_trans (Literal.beq_symm hm) h
      have hml' : (m' == l') = true := by
        rcases hl with rfl | hl
        · exact hml
        · exact Literal.beq_trans hml hl
      rw [accepts.eq_def]
      exact hml'
  · cases ha.parts
    rcases hnumber with rfl | ⟨x, y, hx, -⟩
    · rw [accepts.eq_def]
      rfl
    · cases hx
  · cases ha.parts
    rcases hnumber with rfl | ⟨x, y, -, rfl, -⟩
    · rw [accepts.eq_def]
      rfl
    · rw [accepts.eq_def]
      rfl
  · cases ha.parts
    rcases hnumber with rfl | ⟨x, y, hx, -⟩
    · rw [accepts.eq_def]
      rfl
    · cases hx
  · cases ha.parts
    rcases hnumber with rfl | ⟨x, y, hx, rfl, hxy⟩
    · rw [accepts.eq_def]
      exact h
    · cases hx
      rw [accepts.eq_def]
      exact Double.isIntegral_of_beq hxy h
  · cases h

/-- What a shape accepts of another, shapes that are alike accept of shapes that are alike. -/
theorem accepts_of_alike (a b : Shape) (h : a.accepts b = true) {a' b' : Shape} (ha : Alike a a') (hb : Alike b b') :
    a'.accepts b' = true := by
  rw [accepts.eq_def] at h
  split at h
  · cases ha.parts
    rw [accepts.eq_def]
  · rename_i bs _
    cases hb.parts with
    | union hbs =>
      refine accepts_union_iff.2 fun b' hb' => ?_
      obtain ⟨b, hb, hbb⟩ := exists_mem_of_forall₂ hbs hb'
      have hlt := List.sizeOf_lt_of_mem hb
      exact accepts_of_alike a b (acceptsAll_iff.1 h b hb) ha hbb
  · rename_i as _ hn
    have hu : b.isUnion = false := by
      cases b with
      | union bs => exact absurd rfl (hn bs)
      | _ => rfl
    obtain ⟨a, ha', h⟩ := anyAccepts_iff.1 h
    cases ha.parts with
    | union has =>
      obtain ⟨a', hm, haa⟩ := exists_mem_of_forall₂ has.flip ha'
      have hlt := List.sizeOf_lt_of_mem ha'
      exact (union_accepts_iff (hb.isUnion_eq ▸ hu)).2 ⟨a', hm, accepts_of_alike a b h haa hb⟩
  · cases ha.parts; cases hb.parts; rw [accepts.eq_def]; exact h
  · cases ha.parts; cases hb.parts; rw [accepts.eq_def]
  · cases ha.parts; cases hb.parts; rw [accepts.eq_def]
  · cases ha.parts; cases hb.parts; rw [accepts.eq_def]
  · cases ha.parts; cases hb.parts; rw [accepts.eq_def]
  · cases ha.parts; cases hb.parts; rw [accepts.eq_def]
  · cases ha.parts; cases hb.parts; rw [accepts.eq_def]
  · rename_i s t
    cases ha.parts with
    | array hs =>
      cases hb.parts with
      | array ht =>
        rw [accepts.eq_def]
        exact accepts_of_alike s t h hs ht
  · rename_i s ts
    cases ha.parts with
    | array hs =>
      cases hb.parts with
      | tuple hts =>
        rw [accepts.eq_def]
        refine acceptsAll_iff.2 fun t' ht' => ?_
        obtain ⟨t, ht, htt⟩ := exists_mem_of_forall₂ hts ht'
        have hlt := List.sizeOf_lt_of_mem ht
        exact accepts_of_alike s t (acceptsAll_iff.1 h t ht) hs htt
  · rename_i ss ts
    obtain ⟨hlen, h⟩ := acceptsEach_iff.1 h
    cases ha.parts with
    | tuple hss =>
      cases hb.parts with
      | tuple hts =>
        rw [accepts.eq_def]
        refine acceptsEach_iff.2 ⟨(hss.length_eq.symm.trans hlen).trans hts.length_eq, fun i s' t' hs' ht' => ?_⟩
        obtain ⟨s, hs, hss⟩ := exists_getElem?_of_forall₂ hss hs'
        obtain ⟨t, ht, htt⟩ := exists_getElem?_of_forall₂ hts ht'
        have hlt := List.sizeOf_lt_of_mem (List.mem_of_getElem? hs)
        have hlt' := List.sizeOf_lt_of_mem (List.mem_of_getElem? ht)
        exact accepts_of_alike s t (h i s t hs ht) hss htt
  · rename_i fields others
    cases ha.parts with
    | object hfs =>
      cases hb.parts with
      | object hgs =>
        rw [accepts.eq_def]
        refine acceptsFields_iff.2 fun f' hf' => ?_
        obtain ⟨f, hf, hn, hs, ho⟩ := exists_mem_of_forall₂ hfs hf'
        have hfield := acceptsField_iff.1 (acceptsFields_iff.1 h f hf)
        rw [acceptsField_iff, ← hn, ← ho]
        rcases find?_alike f.name hgs with ⟨hg, hg'⟩ | ⟨g, g', hg, hg', -, hgs, hgo⟩
        · rw [hg] at hfield
          rw [hg']
          exact hfield
        · rw [hg] at hfield
          rw [hg']
          have hlt := sizeOf_shape_lt hf
          have hlt' := sizeOf_shape_lt (List.mem_of_find?_eq_some hg)
          exact ⟨accepts_of_alike f.shape g.shape hfield.1 hs hgs, hgo ▸ hfield.2⟩
  · cases hb.parts with
    | literal hl => exact accepts_literal_of_alike h ha hl
  · cases h
termination_by sizeOf a + sizeOf b
decreasing_by
  all_goals
    subst_vars
    simp only [union.sizeOf_spec, array.sizeOf_spec, tuple.sizeOf_spec, object.sizeOf_spec]
    omega

/-- **Equal shapes accept alike and are accepted alike.** -/
theorem accepts_congr {a a' b b' : Shape} (ha : Alike a a') (hb : Alike b b') : a.accepts b = a'.accepts b' := by
  rw [Bool.eq_iff_iff]
  exact ⟨fun h => accepts_of_alike a b h ha hb, fun h => accepts_of_alike a' b' h ha.symm hb.symm⟩

end Congruence

section Unions

variable {a c p : Shape} {ss : List Shape}

/-- What `oneOf` leaves out is like an alternative that it keeps. -/
theorem exists_alike_mem_eraseDups {b : Shape} (h : b ∈ ss) : ∃ d ∈ ss.eraseDups, Alike b d := by
  obtain ⟨d, hd, he⟩ := exists_mem_eraseDups h
  exact ⟨d, hd, he⟩

/-- What is no union is accepted by `oneOf` through one of the shapes that it is made of. -/
theorem oneOf_accepts_iff (hp : p.isUnion = false) : (oneOf ss).accepts p = true ↔ ∃ s ∈ ss, s.accepts p = true := by
  have hdistinct : (oneOf ss).accepts p = true ↔ ∃ d ∈ (ss.flatMap branches).eraseDups, d.accepts p = true := by
    rcases oneOf_cases ss with ⟨s, hs, ho⟩ | ⟨-, ho⟩
    · rw [ho, hs]
      simp
    · rw [ho, union_accepts_iff hp]
  rw [hdistinct]
  constructor
  · rintro ⟨d, hd, h⟩
    obtain ⟨s, hs, hds⟩ := List.mem_flatMap.1 (mem_of_mem_eraseDups hd)
    exact ⟨s, hs, (exists_branches_accepts_iff hp s).1 ⟨d, hds, h⟩⟩
  · rintro ⟨s, hs, h⟩
    obtain ⟨b, hb, h⟩ := (exists_branches_accepts_iff hp s).2 h
    obtain ⟨d, hd, hbd⟩ := exists_alike_mem_eraseDups (List.mem_flatMap.2 ⟨s, hs, hb⟩)
    exact ⟨d, hd, accepts_of_alike b p h hbd (Alike.refl p)⟩

/-- A shape is accepted branch by branch. -/
theorem accepts_branches_iff : (∀ b ∈ c.branches, a.accepts b = true) ↔ a.accepts c = true := by
  cases c with
  | union cs => exact accepts_union_iff.symm
  | _ => simp [branches]

/-- What `oneOf` makes of some shapes is accepted where each of them is. -/
theorem accepts_oneOf_iff : a.accepts (oneOf ss) = true ↔ ∀ s ∈ ss, a.accepts s = true := by
  refine ⟨fun h s hs => accepts_branches_iff.1 fun b hb => ?_, accepts_oneOf⟩
  have hdistinct : ∀ d ∈ (ss.flatMap branches).eraseDups, a.accepts d = true := by
    rcases oneOf_cases ss with ⟨t, ht, ho⟩ | ⟨-, ho⟩
    · rw [ho] at h
      rw [ht]
      exact List.forall_mem_singleton.2 h
    · rw [ho] at h
      exact accepts_union_iff.1 h
  obtain ⟨d, hd, hbd⟩ := exists_alike_mem_eraseDups (List.mem_flatMap.2 ⟨s, hs, hb⟩)
  rw [accepts_congr (Alike.refl a) hbd]
  exact hdistinct d hd

/-- **Acceptance does not tell `oneOf` from the union that holds the same alternatives as they are given**, neither as
what accepts nor as what is accepted; and both are accepted where every alternative is. -/
theorem oneOf_interchangeable (xs : List Shape) (c : Shape) : (oneOf xs).accepts c = (union xs).accepts c ∧
    (c.accepts (oneOf xs) = true ↔ ∀ x ∈ xs, c.accepts x = true) ∧ c.accepts (oneOf xs) = c.accepts (union xs) := by
  have hleft : (oneOf xs).accepts c = true ↔ (union xs).accepts c = true := by
    rw [accepts_iff_atoms, union_accepts_iff_atoms]
    exact forall₂_congr fun p hp => oneOf_accepts_iff (isUnion_of_mem_atoms hp)
  have hright : c.accepts (oneOf xs) = true ↔ c.accepts (union xs) = true :=
    accepts_oneOf_iff.trans accepts_union_iff.symm
  exact ⟨Bool.eq_iff_iff.2 hleft, accepts_oneOf_iff, Bool.eq_iff_iff.2 hright⟩

end Unions

section Reflexivity

mutual

/-- The shape and all shapes inside it. -/
def nodes : Shape → List Shape
  | union ss => union ss :: nodesAll ss
  | array s => array s :: nodes s
  | tuple ss => tuple ss :: nodesAll ss
  | object fs => object fs :: nodesFields fs
  | s => [s]

def nodesAll : List Shape → List Shape
  | [] => []
  | s :: ss => nodes s ++ nodesAll ss

def nodesFields : List ShapeField → List Shape
  | [] => []
  | ⟨_, s, _⟩ :: fs => nodes s ++ nodesFields fs

end

theorem mem_nodes_self (s : Shape) : s ∈ s.nodes := by
  cases s <;> simp [nodes]

theorem mem_nodesAll_iff {t : Shape} : ∀ {ss : List Shape}, t ∈ nodesAll ss ↔ ∃ s ∈ ss, t ∈ s.nodes
  | [] => by simp [nodesAll]
  | s :: ss => by rw [nodesAll, List.mem_append, mem_nodesAll_iff, List.exists_mem_cons_iff]

theorem mem_nodesFields_iff {t : Shape} : ∀ {fs : List ShapeField},
    t ∈ nodesFields fs ↔ ∃ f ∈ fs, t ∈ f.shape.nodes
  | [] => by simp [nodesFields]
  | ⟨_, s, _⟩ :: fs => by rw [nodesFields, List.mem_append, mem_nodesFields_iff, List.exists_mem_cons_iff]

/-- No literal inside is a NaN, and the fields of each object inside have distinct names. -/
structure Regular (a : Shape) : Prop where
  numbers : literal (.number .nan) ∉ a.nodes
  names : ∀ fields, object fields ∈ a.nodes → (fields.map (·.name)).Nodup

theorem Regular.of_subset {a b : Shape} (h : a.Regular) (hs : b.nodes ⊆ a.nodes) : b.Regular :=
  ⟨fun hm => h.numbers (hs hm), fun fields hm => h.names fields (hs hm)⟩

/-- A shape accepts what one of its atoms accepts, unless that is a union. -/
theorem accepts_of_mem_atoms {p q : Shape} (hp : p.isUnion = false) (h : q.accepts p = true) : ∀ (a : Shape),
    q ∈ a.atoms → a.accepts p = true
  | .union ss, hq => by
    obtain ⟨s, hs, hq⟩ := mem_atomsAll_iff.1 hq
    have hlt := List.sizeOf_lt_of_mem hs
    exact (union_accepts_iff hp).2 ⟨s, hs, accepts_of_mem_atoms hp h s hq⟩
  | .unknown, hq | .string, hq | .number, hq | .integer, hq | .boolean, hq | .null, hq | .literal _, hq | .array _, hq
  | .tuple _, hq | .object _, hq | .named _, hq => List.mem_singleton.1 hq ▸ h

/-- A shape whose atoms accept themselves accepts itself. -/
theorem accepts_self_of_atoms {a : Shape} (h : ∀ p ∈ a.atoms, p.accepts p = true) : a.accepts a = true :=
  (accepts_iff_atoms a).2 fun p hp => accepts_of_mem_atoms (isUnion_of_mem_atoms hp) (h p hp) a hp

/-- **Every atom accepts itself**, as the shapes inside it do by their atoms. -/
theorem atom_accepts_self (a : Shape) (h : a.Regular) : ∀ p ∈ a.atoms, p.accepts p = true := by
  intro p hp
  cases a with
  | union ss =>
    obtain ⟨s, hs, hp⟩ := mem_atomsAll_iff.1 hp
    have hsub : s.nodes ⊆ (union ss).nodes := fun t ht => by
      rw [nodes]
      exact List.mem_cons_of_mem _ (mem_nodesAll_iff.2 ⟨s, hs, ht⟩)
    have hlt := List.sizeOf_lt_of_mem hs
    exact atom_accepts_self s (h.of_subset hsub) p hp
  | literal l =>
    rw [List.mem_singleton.1 hp, accepts.eq_def]
    exact Literal.beq_self_iff.2 fun he => h.numbers (he ▸ mem_nodes_self _)
  | array s =>
    have hsub : s.nodes ⊆ (array s).nodes := fun t ht => List.mem_cons_of_mem _ ht
    rw [List.mem_singleton.1 hp, accepts.eq_def]
    exact accepts_self_of_atoms (atom_accepts_self s (h.of_subset hsub))
  | tuple ss =>
    rw [List.mem_singleton.1 hp, accepts.eq_def]
    refine acceptsEach_iff.2 ⟨rfl, fun i s s' hs hs' => ?_⟩
    cases hs.symm.trans hs'
    have hmem := List.mem_of_getElem? hs
    have hsub : s.nodes ⊆ (tuple ss).nodes := fun t ht =>
      List.mem_cons_of_mem _ (mem_nodesAll_iff.2 ⟨s, hmem, ht⟩)
    have hlt := List.sizeOf_lt_of_mem hmem
    exact accepts_self_of_atoms (atom_accepts_self s (h.of_subset hsub))
  | object fs =>
    rw [List.mem_singleton.1 hp, accepts.eq_def]
    refine acceptsFields_iff.2 fun f hf => acceptsField_iff.2 ?_
    -- The first field of the name is the field itself, as no other has its name.
    rw [find?_of_mem (h.names fs (mem_nodes_self _)) hf]
    have hsub : f.shape.nodes ⊆ (object fs).nodes := fun t ht =>
      List.mem_cons_of_mem _ (mem_nodesFields_iff.2 ⟨f, hf, ht⟩)
    have hlt := sizeOf_shape_lt hf
    refine ⟨accepts_self_of_atoms (atom_accepts_self f.shape (h.of_subset hsub)), ?_⟩
    exact Bool.eq_false_or_eq_true f.optional
  | named n =>
    rw [List.mem_singleton.1 hp, accepts.eq_def]
    exact beq_self_eq_true n
  | _ => rw [List.mem_singleton.1 hp, accepts.eq_def]
termination_by sizeOf a
decreasing_by
  all_goals
    subst_vars
    simp only [union.sizeOf_spec, array.sizeOf_spec, tuple.sizeOf_spec, object.sizeOf_spec]
    omega

theorem accepts_self {a : Shape} (h : a.Regular) : a.accepts a = true :=
  accepts_self_of_atoms (atom_accepts_self a h)

/-- What is inside of what `oneOf` makes of some shapes is inside of one of them, besides unions. -/
theorem exists_nodes_of_oneOf {t : Shape} {ss : List Shape} (h : t ∈ (oneOf ss).nodes) (ht : t.isUnion = false) :
    ∃ s ∈ ss, t ∈ s.nodes := by
  have hbranch : ∀ b ∈ (ss.flatMap branches).eraseDups, t ∈ b.nodes → ∃ s ∈ ss, t ∈ s.nodes := by
    intro b hb hm
    obtain ⟨s, hs, hb⟩ := List.mem_flatMap.1 (mem_of_mem_eraseDups hb)
    refine ⟨s, hs, ?_⟩
    cases s with
    | union bs =>
      rw [nodes]
      exact List.mem_cons_of_mem _ (mem_nodesAll_iff.2 ⟨b, hb, hm⟩)
    | _ => exact List.mem_singleton.1 hb ▸ hm
  rcases oneOf_cases ss with ⟨s, hs, ho⟩ | ⟨-, ho⟩
  · exact hbranch s (hs ▸ List.mem_cons_self) (ho ▸ h)
  · rw [ho, nodes] at h
    rcases List.mem_cons.1 h with rfl | h
    · cases ht
    · obtain ⟨b, hb, hm⟩ := mem_nodesAll_iff.1 h
      exact hbranch b hb hm

/-- What a shape that is made of some literals may have inside: one of them, or an object with fields of distinct
names, or what is neither. -/
def MadeOf (ls : List Literal) : Shape → Prop
  | literal l => l ∈ ls
  | object fields => (fields.map (·.name)).Nodup
  | _ => True

theorem MadeOf.mono {ls ls' : List Literal} (hs : ls ⊆ ls') {s : Shape} (h : s.MadeOf ls) : s.MadeOf ls' := by
  cases s with
  | literal l => exact hs h
  | object fields => exact h
  | _ => trivial

theorem madeOf_of_isUnion {ls : List Literal} {s : Shape} (h : s.isUnion = true) : s.MadeOf ls := by
  cases s with
  | union ss => trivial
  | _ => cases h

end Reflexivity

end Shape

namespace Constraint

mutual

/-- The shape of a constraint is made of the literals of the constraint. -/
theorem madeOf_of_mem_nodes : ∀ (c : Constraint), ∀ t ∈ c.shape.nodes, t.MadeOf c.literals
  | .kind k, _, h => by cases k <;> cases List.mem_singleton.1 h <;> trivial
  | .range k _ _, _, h => by cases k <;> cases List.mem_singleton.1 h <;> trivial
  | .format _, _, h => by cases List.mem_singleton.1 h; trivial
  | .reference _, _, h => by cases List.mem_singleton.1 h; trivial
  | .literal l, _, h => by
    cases l with
    | null => cases List.mem_singleton.1 h; trivial
    | _ => cases List.mem_singleton.1 h; exact List.mem_singleton_self _
  | .union cs, t, h => by
    rw [shape, shapeAll_eq_map] at h
    cases hu : t.isUnion with
    | true => exact Shape.madeOf_of_isUnion hu
    | false =>
      obtain ⟨s, hs, ht⟩ := Shape.exists_nodes_of_oneOf h hu
      exact madeOf_of_mem_nodesAll cs s hs t ht
  | .array c, t, h => by
    rcases List.mem_cons.1 h with rfl | h
    · trivial
    · exact madeOf_of_mem_nodes c t h
  | .tuple cs, t, h => by
    rw [shape, Shape.nodes, shapeAll_eq_map] at h
    rcases List.mem_cons.1 h with rfl | h
    · trivial
    · obtain ⟨s, hs, ht⟩ := Shape.mem_nodesAll_iff.1 h
      exact madeOf_of_mem_nodesAll cs s hs t ht
  | .optional c, t, h => madeOf_of_mem_nodes c t h

theorem madeOf_of_mem_nodesAll : ∀ (cs : List Constraint), ∀ s ∈ cs.map shape, ∀ t ∈ s.nodes,
    t.MadeOf (literalsAll cs)
  | c :: cs, s, hs, t, h => by
    rw [literalsAll]
    rw [List.map_cons] at hs
    rcases List.mem_cons.1 hs with he | hs
    · rw [he] at h
      exact (madeOf_of_mem_nodes c t h).mono (List.subset_append_left _ _)
    · exact (madeOf_of_mem_nodesAll cs s hs t h).mono (List.subset_append_right _ _)

end

end Constraint

namespace Tree

mutual

/-- **The shape of a tree is made of the literals at its leaves**, if its objects have fields of distinct names. -/
theorem madeOf_of_mem_nodes : ∀ (t : Tree), t.distinctFields = true → ∀ s ∈ t.shape.nodes,
    s.MadeOf (t.leaves.flatMap Constraint.literals)
  | .leaf c, _, s, h => by
    rw [leaves, List.flatMap_singleton]
    exact c.madeOf_of_mem_nodes s h
  | .object fields _, hd, s, h => by
    rw [shape, Shape.nodes, shapeFields_eq_map] at h
    obtain ⟨hnodup, hd⟩ := distinctFields_object.1 hd
    rcases List.mem_cons.1 h with rfl | h
    · rw [Shape.MadeOf, List.map_map]
      exact hnodup
    · obtain ⟨g, hg, hs⟩ := Shape.mem_nodesFields_iff.1 h
      obtain ⟨f, hf, rfl⟩ := List.mem_map.1 hg
      exact madeOf_of_mem_nodesFields fields hd f hf s hs
  | .array t, hd, s, h => by
    rcases List.mem_cons.1 h with rfl | h
    · trivial
    · exact madeOf_of_mem_nodes t hd s h
  | .tuple ts, hd, s, h => by
    rw [shape, Shape.nodes, shapeAll_eq_map] at h
    rcases List.mem_cons.1 h with rfl | h
    · trivial
    · obtain ⟨u, hu, hs⟩ := Shape.mem_nodesAll_iff.1 h
      obtain ⟨t, ht, rfl⟩ := List.mem_map.1 hu
      exact madeOf_of_mem_nodesEach ts (distinctFields_tuple.1 hd) t ht s hs

theorem madeOf_of_mem_nodesFields : ∀ (fields : List Field), (∀ f ∈ fields, f.node.distinctFields = true) →
    ∀ f ∈ fields, ∀ s ∈ f.node.shape.nodes, s.MadeOf ((leavesFields fields).flatMap Constraint.literals)
  | ⟨_, _, t⟩ :: fields, hd, f, hf, s, h => by
    rw [leavesFields, List.flatMap_append]
    obtain ⟨ht, hd⟩ := List.forall_mem_cons.1 hd
    rcases List.mem_cons.1 hf with rfl | hf
    · exact (madeOf_of_mem_nodes t ht s h).mono (List.subset_append_left _ _)
    · exact (madeOf_of_mem_nodesFields fields hd f hf s h).mono (List.subset_append_right _ _)

theorem madeOf_of_mem_nodesEach : ∀ (ts : List Tree), (∀ t ∈ ts, t.distinctFields = true) →
    ∀ t ∈ ts, ∀ s ∈ t.shape.nodes, s.MadeOf ((leavesEach ts).flatMap Constraint.literals)
  | t :: ts, hd, u, hu, s, h => by
    rw [leavesEach, List.flatMap_append]
    obtain ⟨ht, hd⟩ := List.forall_mem_cons.1 hd
    rcases List.mem_cons.1 hu with he | hu
    · rw [he] at h
      exact (madeOf_of_mem_nodes t ht s h).mono (List.subset_append_left _ _)
    · exact (madeOf_of_mem_nodesEach ts hd u hu s h).mono (List.subset_append_right _ _)

end

end Tree

/-- A validator without a NaN has a regular shape. -/
theorem Validator.Compiled.regular_shape {v : Validator} (hv : v.Compiled)
    (hn : ∀ c ∈ v.root.leaves, Literal.number .nan ∉ c.literals) : v.shape.Regular := by
  have hmade := v.root.madeOf_of_mem_nodes hv.distinctFields.root
  refine ⟨fun h => ?_, fun fields h => hmade _ h⟩
  obtain ⟨c, hc, hl⟩ := List.mem_flatMap.1 (hmade _ h)
  exact hn c hc hl

namespace Shape

/-- **Acceptance is reflexive** on every shape, whatever unions it has inside, in which no literal is a NaN and the
fields of an object have distinct names; and so on the shape of every validator without a NaN. -/
theorem accepts_reflexive :
    (∀ a : Shape, literal (.number .nan) ∉ a.nodes →
      (∀ fields, object fields ∈ a.nodes → (fields.map (·.name)).Nodup) → a.accepts a = true) ∧
      ∀ v : Validator, v.Compiled → (∀ c ∈ v.root.leaves, Literal.number .nan ∉ c.literals) →
        v.shape.accepts v.shape = true :=
  ⟨fun _ hn hd => accepts_self ⟨hn, hd⟩, fun _ hv hn => accepts_self (hv.regular_shape hn)⟩

/-- Unions as no union is made by `oneOf`: empty ones, ones inside of others, and one of a single alternative. -/
def raggedUnions : Shape :=
  .union [.union [], .union [.union [.object [⟨"id", .integer, false⟩, ⟨"next", .union [.named "Id", .null], true⟩]]],
    .tuple [.union [.literal (.number (.finite .zero)), .union []]]]

/-- A shape with ragged unions accepts itself, and so does the shape of counts. -/
theorem accepts_reflexive_raggedUnions : raggedUnions.accepts raggedUnions = true ∧
    Validator.countValidator.shape.accepts Validator.countValidator.shape = true := by
  refine ⟨accepts_reflexive.1 raggedUnions ?_ ?_, accepts_reflexive.2 _ Validator.compiled_countValidator ?_⟩
  · simp [raggedUnions, nodes, nodesAll, nodesFields]
  · intro fields h
    obtain rfl : fields = [⟨"id", .integer, false⟩, ⟨"next", .union [.named "Id", .null], true⟩] := by
      simpa [raggedUnions, nodes, nodesAll, nodesFields] using h
    decide
  · simp [Validator.countValidator, Validator.countTree, Tree.leaves, Tree.leavesFields, Constraint.literals,
      Constraint.literalsAll]

end Shape

end Assay
