import Assay.Proofs.Acceptance
/-!
# The shape of a union

`oneOf` is defined twice, on constraints and on shapes, and both times it opens unions by one level and keeps the first
of those that are equal.  Equality only is symmetric and transitive, as a NaN differs from itself; that is enough for
what is left out to be left out again after each alternative has been replaced by its shape
(`eraseDups_flatMap_eraseDups`).  So the shape of `oneOf` is `oneOf` of the shapes (`shape_oneOf`), and rearranging the
alternatives does not change what is allowed (`allows_of_rearranged`).
-/
namespace Assay

section Repetitions

variable {α β : Type} [BEq α]

/-- Leaving out equal elements commutes with a filter that does not tell them apart. -/
theorem filter_eraseDups {p : α → Bool} (hp : ∀ a b, (a == b) = true → p a = p b) : ∀ (as : List α),
    (as.filter p).eraseDups = as.eraseDups.filter p
  | [] => rfl
  | a :: as => by
    have ih := filter_eraseDups hp (as.filter fun b => !b == a)
    rw [List.eraseDups_cons]
    by_cases ha : p a = true
    · rw [List.filter_cons_of_pos ha, List.filter_cons_of_pos ha, List.eraseDups_cons, ← ih, List.filter_filter,
        List.filter_filter]
      simp only [Bool.and_comm]
    · rw [List.filter_cons_of_neg ha, List.filter_cons_of_neg ha, ← ih, List.filter_filter]
      refine congrArg List.eraseDups (List.filter_congr fun b _ => ?_)
      cases hb : b == a with
      | false => simp
      | true => rw [hp b a hb]; simp [ha]
termination_by as => as.length
decreasing_by exact Nat.lt_succ_of_le (List.length_filter_le _ _)

/-- The elements of the one list that equal none of the other. -/
def besides (as bs : List α) : List α := bs.filter fun b => !as.any fun a => b == a

theorem mem_besides_iff {as bs : List α} {b : α} : b ∈ besides as bs ↔ b ∈ bs ∧ ∀ a ∈ as, (b == a) = false := by
  unfold besides
  rw [List.mem_filter, Bool.not_eq_true', List.any_eq_false]
  simp

theorem besides_eq_of_iff {as as' bs : List α}
    (h : ∀ b ∈ bs, (∃ a ∈ as, (b == a) = true) ↔ ∃ a ∈ as', (b == a) = true) : besides as bs = besides as' bs := by
  refine List.filter_congr fun b hb => congrArg (!·) (Bool.eq_iff_iff.2 ?_)
  rw [List.any_eq_true, List.any_eq_true]
  exact h b hb

theorem besides_append (as bs cs : List α) : besides as (bs ++ cs) = besides as bs ++ besides as cs :=
  List.filter_append _ _

variable [PartialEquivBEq α]

/-- Of what is appended, nothing is kept that equals an element before it. -/
theorem eraseDups_append : ∀ (as bs : List α), (as ++ bs).eraseDups = as.eraseDups ++ (besides as bs).eraseDups
  | [], bs => by simp [besides]
  | a :: as, bs => by
    have hb : besides (as.filter fun b => !b == a) (bs.filter fun b => !b == a) = besides (a :: as) bs := by
      unfold besides
      rw [List.filter_filter]
      refine List.filter_congr fun b _ => ?_
      cases hba : b == a with
      | true => simp [hba]
      | false =>
        -- An element that equals `a` does not equal `b`, so nothing is missed among those that are left out.
        rw [List.any_cons, hba, Bool.not_false, Bool.and_true, Bool.false_or, List.any_filter]
        refine congrArg (!·) (Bool.eq_iff_iff.2 ?_)
        rw [List.any_eq_true, List.any_eq_true]
        constructor
        · rintro ⟨x, hx, h⟩
          exact ⟨x, hx, (Bool.and_eq_true_iff.1 h).2⟩
        · rintro ⟨x, hx, h⟩
          have hxa : (x == a) = false := Bool.eq_false_iff.2 fun hxa => by rw [BEq.trans h hxa] at hba; cases hba
          exact ⟨x, hx, by rw [hxa, h]; rfl⟩
    rw [List.cons_append, List.eraseDups_cons, List.filter_append, eraseDups_append, hb, List.eraseDups_cons,
      List.cons_append]
termination_by as => as.length
decreasing_by exact Nat.lt_succ_of_le (List.length_filter_le _ _)

/-- Equal elements may be left out before others are appended. -/
theorem eraseDups_eraseDups_append (as bs : List α) : (as.eraseDups ++ bs).eraseDups = (as ++ bs).eraseDups := by
  have hb : besides as.eraseDups bs = besides as bs := by
    refine besides_eq_of_iff fun b _ => ⟨fun ⟨a, ha, h⟩ => ⟨a, mem_of_mem_eraseDups ha, h⟩, fun ⟨a, ha, h⟩ => ?_⟩
    obtain ⟨d, hd, rfl | he⟩ := exists_mem_eraseDups ha
    · exact ⟨a, hd, h⟩
    · exact ⟨d, hd, BEq.trans h he⟩
  rw [eraseDups_append, eraseDups_append, eraseDups_eq_self (unrepeated_eraseDups as), hb]

/-- Equal elements may be left out of what is appended. -/
theorem eraseDups_append_eraseDups (as bs : List α) : (as ++ bs.eraseDups).eraseDups = (as ++ bs).eraseDups := by
  have hb : besides as bs.eraseDups = (besides as bs).eraseDups := by
    refine (filter_eraseDups (fun b b' h => ?_) bs).symm
    refine congrArg (!·) (Bool.eq_iff_iff.2 ?_)
    rw [List.any_eq_true, List.any_eq_true]
    exact exists_congr fun a => and_congr_right fun _ => ⟨fun hb => BEq.trans (BEq.symm h) hb, fun hb => BEq.trans h hb⟩
  rw [eraseDups_append, eraseDups_append, hb, eraseDups_eq_self (unrepeated_eraseDups _)]

theorem eraseDups_flatMap_eraseDups_apply (f : β → List α) : ∀ (bs : List β),
    (bs.flatMap fun b => (f b).eraseDups).eraseDups = (bs.flatMap f).eraseDups
  | [] => rfl
  | b :: bs => by
    rw [List.flatMap_cons, List.flatMap_cons, eraseDups_eraseDups_append, ← eraseDups_append_eraseDups,
      eraseDups_flatMap_eraseDups_apply f bs, eraseDups_append_eraseDups]

omit [PartialEquivBEq α] in
/-- What replaces the equals of an element does not stand besides what replaces the element. -/
theorem besides_flatMap_filter {γ : Type} [BEq γ] {f : γ → List α}
    (hf : ∀ c d, (c == d) = true → ∀ a ∈ f c, ∃ b ∈ f d, (a == b) = true) (c : γ) : ∀ (ds : List γ),
      besides (f c) ((ds.filter fun d => !d == c).flatMap f) = besides (f c) (ds.flatMap f)
  | [] => rfl
  | d :: ds => by
    have ih := besides_flatMap_filter hf c ds
    cases hd : d == c with
    | true =>
      have hnil : besides (f c) (f d) = [] := by
        refine List.eq_nil_iff_forall_not_mem.2 fun a ha => ?_
        obtain ⟨ha, hn⟩ := mem_besides_iff.1 ha
        obtain ⟨b, hb, hab⟩ := hf d c hd a ha
        exact Bool.eq_false_iff.1 (hn b hb) hab
      rw [List.filter_cons_of_neg (by simp [hd]), List.flatMap_cons, besides_append, hnil, List.nil_append, ih]
    | false =>
      rw [List.filter_cons_of_pos (by simp [hd]), List.flatMap_cons, List.flatMap_cons, besides_append, besides_append,
        ih]

/-- Equal elements may be left out before each is replaced by some others, if equal elements are replaced by equal
ones. -/
theorem eraseDups_flatMap_eraseDups {γ : Type} [BEq γ] {f : γ → List α}
    (hf : ∀ c d, (c == d) = true → ∀ a ∈ f c, ∃ b ∈ f d, (a == b) = true) : ∀ (cs : List γ),
      (cs.eraseDups.flatMap f).eraseDups = (cs.flatMap f).eraseDups
  | [] => rfl
  | c :: cs => by
    have hb := besides_flatMap_filter hf c cs
    rw [List.eraseDups_cons, List.flatMap_cons, List.flatMap_cons, ← eraseDups_append_eraseDups,
      eraseDups_flatMap_eraseDups hf, eraseDups_append_eraseDups, eraseDups_append, eraseDups_append, hb]
termination_by cs => cs.length
decreasing_by exact Nat.lt_succ_of_le (List.length_filter_le _ _)

/-- Equal lists are equal without their repetitions. -/
theorem forall₂_eraseDups {as bs : List α} (h : List.Forall₂ (fun a b => (a == b) = true) as bs) :
    List.Forall₂ (fun a b => (a == b) = true) as.eraseDups bs.eraseDups := by
  match as, bs, h with
  | [], [], _ => exact .nil
  | a :: as, b :: bs, h =>
    obtain ⟨hab, h⟩ := List.forall₂_cons.1 h
    rw [List.eraseDups_cons, List.eraseDups_cons]
    refine .cons hab (forall₂_eraseDups (List.rel_filter (fun x y (hxy : (x == y) = true) => ?_) h))
    -- Equal elements equal the heads together.
    have hxa : (x == a) = (y == b) := by
      rw [Bool.eq_iff_iff]
      exact ⟨fun h => BEq.trans (BEq.trans (BEq.symm hxy) h) hab,
        fun h => BEq.trans (BEq.trans hxy h) (BEq.symm hab)⟩
    show (!x == a) = true ↔ (!y == b) = true
    rw [hxa]
termination_by as.length
decreasing_by exact Nat.lt_succ_of_le (List.length_filter_le _ _)

end Repetitions

instance : PartialEquivBEq Constraint where
  symm := Constraint.beq_symm
  trans := Constraint.beq_trans

instance : PartialEquivBEq Shape where
  symm := Shape.beq_symm
  trans := Shape.beq_trans

namespace Shape

variable {s t : Shape} {ss : List Shape}

/-- Equal shapes have equal branches. -/
theorem forall₂_branches (h : (s == t) = true) :
    List.Forall₂ (fun s t => (s == t) = true) s.branches t.branches := by
  cases beq_iff.1 h with
  | union hs => exact beqAll_iff_forall₂.1 hs
  | _ => exact .cons h .nil

mutual

/-- **A shape without a NaN equals itself.** -/
theorem beq_self : ∀ {s : Shape}, literal (.number .nan) ∉ s.nodes → (s == s) = true
  | .unknown, _ | .string, _ | .number, _ | .integer, _ | .boolean, _ | .null, _ => rfl
  | .named n, _ => beq_iff.2 (.named n)
  | .literal _, h => beq_iff.2 (.literal (Literal.beq_self_iff.2 fun he => h (he ▸ mem_nodes_self _)))
  | .array _, h => beq_iff.2 (.array (beq_self fun hm => h (List.mem_cons_of_mem _ hm)))
  | .union _, h => beq_iff.2 (.union (beqAll_self fun hm => h (List.mem_cons_of_mem _ hm)))
  | .tuple _, h => beq_iff.2 (.tuple (beqAll_self fun hm => h (List.mem_cons_of_mem _ hm)))
  | .object _, h => beq_iff.2 (.object (beqFields_self fun hm => h (List.mem_cons_of_mem _ hm)))

theorem beqAll_self : ∀ {ss : List Shape}, literal (.number .nan) ∉ nodesAll ss → beqAll ss ss = true
  | [], _ => rfl
  | s :: ss, h => by
    rw [nodesAll, List.mem_append, not_or] at h
    exact Bool.and_eq_true_iff.2 ⟨beq_self h.1, beqAll_self h.2⟩

theorem beqFields_self : ∀ {fs : List ShapeField}, literal (.number .nan) ∉ nodesFields fs → beqFields fs fs = true
  | [], _ => rfl
  | ⟨_, s, _⟩ :: fs, h => by
    rw [nodesFields, List.mem_append, not_or] at h
    exact beqFields_cons_iff.2 ⟨⟨rfl, beq_self h.1, rfl⟩, beqFields_self h.2⟩

end

/-- `oneOf` of equal shapes is equal. -/
theorem oneOf_beq_oneOf {ts : List Shape} (h : List.Forall₂ (fun s t => (s == t) = true) ss ts) :
    (oneOf ss == oneOf ts) = true := by
  have hdistinct : List.Forall₂ (fun s t => (s == t) = true) (ss.flatMap branches).eraseDups
      (ts.flatMap branches).eraseDups := forall₂_eraseDups (List.rel_flatMap h fun _ _ hst => forall₂_branches hst)
  have hl := hdistinct.length_eq
  rcases oneOf_cases ss with ⟨s, hs, ho⟩ | ⟨hs, ho⟩ <;> rcases oneOf_cases ts with ⟨t, ht, ho'⟩ | ⟨ht, ho'⟩
  · rw [ho, ho']
    rw [hs, ht] at hdistinct
    exact (List.forall₂_cons.1 hdistinct).1
  · exact absurd (hl.symm.trans (congrArg List.length hs)) ht
  · exact absurd (hl.trans (congrArg List.length ht)) hs
  · rw [ho, ho']
    exact beq_iff.2 (.union (beqAll_iff_forall₂.2 hdistinct))

/-- **A shape as `oneOf` leaves it**: its alternatives are no unions, do not repeat, and are not one alone. -/
structure Tidy (s : Shape) : Prop where
  plain : ∀ b ∈ s.branches, b.isUnion = false
  unrepeated : Unrepeated s.branches
  several : ∀ ss, s = union ss → ss.length ≠ 1

theorem branches_of_not_isUnion (h : s.isUnion = false) : s.branches = [s] := by
  cases s with
  | union ss => cases h
  | _ => rfl

theorem tidy_of_not_isUnion (h : s.isUnion = false) : s.Tidy := by
  have hb := branches_of_not_isUnion h
  refine ⟨fun b hm => ?_, ?_, fun ss he => ?_⟩
  · rw [hb] at hm
    rw [List.mem_singleton.1 hm]
    exact h
  · rw [hb]
    exact List.pairwise_singleton _ _
  · rw [he] at h
    cases h

/-- The branches of what `oneOf` makes of tidy shapes are theirs, without repetitions. -/
theorem branches_oneOf (h : ∀ s ∈ ss, s.Tidy) : (oneOf ss).branches = (ss.flatMap branches).eraseDups := by
  rcases oneOf_cases ss with ⟨d, hd, ho⟩ | ⟨-, ho⟩
  · have hm : d ∈ ss.flatMap branches := mem_of_mem_eraseDups (hd ▸ List.mem_singleton_self d)
    obtain ⟨s, hs, hb⟩ := List.mem_flatMap.1 hm
    rw [ho, hd, branches_of_not_isUnion ((h s hs).plain d hb)]
  · rw [ho]
    rfl

/-- **The union of tidy shapes is tidy.** -/
theorem tidy_oneOf (h : ∀ s ∈ ss, s.Tidy) : (oneOf ss).Tidy := by
  have hb := branches_oneOf h
  refine ⟨fun b hm => ?_, ?_, fun ts he => ?_⟩
  · rw [hb] at hm
    obtain ⟨s, hs, hbs⟩ := List.mem_flatMap.1 (mem_of_mem_eraseDups hm)
    exact (h s hs).plain b hbs
  · rw [hb]
    exact unrepeated_eraseDups _
  · have hts : (oneOf ss).branches = ts := by rw [he]; rfl
    rcases oneOf_cases ss with ⟨d, hd, ho⟩ | ⟨hl, -⟩
    · have hm : d ∈ (oneOf ss).branches := by rw [hb, hd]; exact List.mem_singleton_self d
      obtain ⟨s, hs, hbs⟩ := List.mem_flatMap.1 (mem_of_mem_eraseDups (hb ▸ hm))
      have hu : d.isUnion = false := (h s hs).plain d hbs
      rw [← ho, he] at hu
      cases hu
    · rw [← hts, hb]
      exact hl

/-- **`oneOf` leaves a tidy shape alone.** -/
theorem Tidy.oneOf_singleton (h : s.Tidy) : oneOf [s] = s := by
  have hd : ([s].flatMap branches).eraseDups = s.branches := by
    rw [List.flatMap_cons, List.flatMap_nil, List.append_nil, eraseDups_eq_self h.unrepeated]
  rcases oneOf_cases [s] with ⟨d, hb, ho⟩ | ⟨hl, ho⟩
  · rw [hd] at hb
    cases s with
    | union ss => exact absurd (congrArg List.length (show ss = [d] from hb)) (h.several ss rfl)
    | _ =>
      cases hb
      exact ho
  · rw [hd] at hl ho
    rw [ho]
    cases s with
    | union ss => rfl
    | _ => exact absurd rfl hl

end Shape

namespace Constraint

mutual

/-- Equal constraints have equal shapes. -/
theorem shape_beq_shape : ∀ {c d : Constraint}, (c == d) = true → (c.shape == d.shape) = true
  | .kind k, _, h => by cases beq_iff.1 h; cases k <;> rfl
  | .range k _ _, _, h => by cases beq_iff.1 h; cases k <;> rfl
  | .format _, _, h => by cases beq_iff.1 h; rfl
  | .literal l, _, h => by
    cases beq_iff.1 h with
    | literal hl =>
      rcases Literal.beq_iff.1 hl with ⟨rfl, -⟩ | ⟨x, y, rfl, rfl, -⟩
      · cases l with
        | null => rfl
        | _ => exact hl
      · exact hl
  | .union cs, _, h => by
    cases beq_iff.1 h with
    | union hs =>
      rw [shape, shape, shapeAll_eq_map, shapeAll_eq_map]
      exact Shape.oneOf_beq_oneOf (forall₂_shape hs)
  | .array _, _, h => by
    cases beq_iff.1 h with
    | array hc => exact Shape.beq_iff.2 (.array (shape_beq_shape hc))
  | .tuple _, _, h => by
    cases beq_iff.1 h with
    | tuple hs =>
      rw [shape, shape, shapeAll_eq_map, shapeAll_eq_map]
      exact Shape.beq_iff.2 (.tuple (Shape.beqAll_iff_forall₂.2 (forall₂_shape hs)))
  | .optional _, _, h => by
    cases beq_iff.1 h with
    | optional hc =>
      have hs := shape_beq_shape hc
      exact hs
  | .reference n, _, h => by cases beq_iff.1 h; exact beq_self_eq_true n

theorem forall₂_shape : ∀ {cs ds : List Constraint}, beqAll cs ds = true →
    List.Forall₂ (fun s t => (s == t) = true) (cs.map shape) (ds.map shape)
  | [], [], _ => .nil
  | _ :: _, _ :: _, h => by
    obtain ⟨hc, h⟩ := Bool.and_eq_true_iff.1 h
    exact .cons (shape_beq_shape hc) (forall₂_shape h)

end

mutual

/-- **The shape of a constraint is tidy**, however its unions are written. -/
theorem tidy_shape : ∀ (c : Constraint), c.shape.Tidy
  | .kind k | .range k _ _ => by cases k <;> exact Shape.tidy_of_not_isUnion rfl
  | .literal l => by cases l <;> exact Shape.tidy_of_not_isUnion rfl
  | .format _ | .array _ | .tuple _ | .reference _ => Shape.tidy_of_not_isUnion rfl
  | .union cs => by
    rw [shape, shapeAll_eq_map]
    exact Shape.tidy_oneOf (tidy_shapeAll cs)
  | .optional c => tidy_shape c

theorem tidy_shapeAll : ∀ (cs : List Constraint), ∀ s ∈ cs.map shape, s.Tidy
  | c :: cs, s, hs => by
    rw [List.map_cons] at hs
    rcases List.mem_cons.1 hs with rfl | hs
    · exact tidy_shape c
    · exact tidy_shapeAll cs s hs

end

/-- Equal constraints have equal branches of their shapes. -/
theorem exists_branches_of_beq {c d : Constraint} (h : (c == d) = true) :
    ∀ s ∈ c.shape.branches, ∃ t ∈ d.shape.branches, (s == t) = true := by
  intro s hs
  obtain ⟨t, ht, hts⟩ := Shape.exists_mem_of_forall₂ (Shape.forall₂_branches (shape_beq_shape (beq_symm h))) hs
  exact ⟨t, ht, Shape.beq_symm hts⟩

/-- The branches of the shape are those of the shapes of the branches, without repetitions. -/
theorem branches_shape (c : Constraint) :
    c.shape.branches = (c.branches.flatMap fun b => b.shape.branches).eraseDups := by
  cases c with
  | union cs =>
    rw [shape, shapeAll_eq_map, Shape.branches_oneOf (tidy_shapeAll cs), List.flatMap_map]
    rfl
  | _ =>
    rw [branches, List.flatMap_singleton, eraseDups_eq_self (tidy_shape _).unrepeated]
    intro _ h
    cases h

/-- **The shape of `oneOf` is `oneOf` of the shapes.** -/
theorem shape_oneOf (xs : List Constraint) : (oneOf xs).shape = Shape.oneOf (xs.map shape) := by
  have hbranches : (((xs.flatMap branches).eraseDups.map shape).flatMap Shape.branches).eraseDups =
      ((xs.map shape).flatMap Shape.branches).eraseDups := calc
    _ = ((xs.flatMap branches).eraseDups.flatMap fun c => c.shape.branches).eraseDups := by rw [List.flatMap_map]
    _ = ((xs.flatMap branches).flatMap fun c => c.shape.branches).eraseDups :=
      eraseDups_flatMap_eraseDups (fun _ _ => exists_branches_of_beq) _
    _ = (xs.flatMap fun x => x.branches.flatMap fun c => c.shape.branches).eraseDups := by rw [List.flatMap_assoc]
    _ = (xs.flatMap fun x => (x.branches.flatMap fun c => c.shape.branches).eraseDups).eraseDups :=
      (eraseDups_flatMap_eraseDups_apply _ xs).symm
    _ = ((xs.map shape).flatMap Shape.branches).eraseDups := by
      rw [List.flatMap_map]
      exact congrArg (fun f => (xs.flatMap f).eraseDups) (funext fun x => (branches_shape x).symm)
  have hdefined : Shape.oneOf ((xs.flatMap branches).eraseDups.map shape) = Shape.oneOf (xs.map shape) := by
    unfold Shape.oneOf
    rw [hbranches]
  rw [← hdefined]
  rcases oneOf_cases xs with ⟨d, hd, ho⟩ | ⟨-, ho⟩
  · rw [ho, hd]
    exact (tidy_shape d).oneOf_singleton.symm
  · rw [ho, shape, shapeAll_eq_map]

/-- **The same alternatives in another arrangement**: in another order, with one of them repeated, or with some of them
put together in a union of their own, with or without its repetitions. -/
inductive Rearranged : List Constraint → List Constraint → Prop
  | permuted {xs ys : List Constraint} : xs.Perm ys → Rearranged xs ys
  | repeated {x : Constraint} {xs : List Constraint} : x ∈ xs → Rearranged xs (x :: xs)
  | grouped (cs xs : List Constraint) : Rearranged (cs ++ xs) (union cs :: xs)
  | groupedOnce (cs xs : List Constraint) : Rearranged (cs ++ xs) (oneOf cs :: xs)
  | symm {xs ys : List Constraint} : Rearranged xs ys → Rearranged ys xs
  | trans {xs ys zs : List Constraint} : Rearranged xs ys → Rearranged ys zs → Rearranged xs zs

/-- **Rearranged alternatives allow the same values.** -/
theorem Rearranged.allowsAny_eq {xs ys : List Constraint} (h : Rearranged xs ys) (follow : String → Json → Bool)
    (v : Json) : allowsAny follow xs v = allowsAny follow ys v := by
  induction h with
  | permuted hp =>
    rw [Bool.eq_iff_iff, allowsAny_iff, allowsAny_iff]
    exact exists_congr fun c => and_congr_left fun _ => hp.mem_iff
  | repeated hx =>
    rw [allowsAny, Bool.eq_iff_iff, Bool.or_eq_true, allowsAny_iff]
    exact ⟨Or.inr, fun h => h.elim (fun hv => ⟨_, hx, hv⟩) id⟩
  | grouped cs xs =>
    rw [allowsAny_append, allowsAny, allows]
  | groupedOnce cs xs =>
    rw [allowsAny_append, allowsAny, allows_oneOf]
  | symm _ ih => exact ih.symm
  | trans _ _ ih ih' => exact ih.trans ih'

/-- **A union is the same however it is brought into its canonical form.**  It allows what some alternative allows,
wherever references lead; so rearranging the alternatives changes no decision.  Its shape is the union of the shapes of
the alternatives, and equal to it as soon as no literal is a NaN. -/
theorem oneOf_canonical (xs : List Constraint) :
    (∀ follow v, (Tree.leaf (oneOf xs)).allows follow v = true ↔
      ∃ x ∈ xs, (Tree.leaf x).allows follow v = true) ∧
    (∀ ys, Rearranged xs ys → ∀ follow v,
      (Tree.leaf (oneOf xs)).allows follow v = (Tree.leaf (oneOf ys)).allows follow v) ∧
    (oneOf xs).shape = Shape.oneOf (xs.map shape) ∧
    ((∀ x ∈ xs, Literal.number .nan ∉ x.literals) → ((oneOf xs).shape == Shape.oneOf (xs.map shape)) = true) := by
  refine ⟨fun follow v => ?_, fun ys h follow v => ?_, shape_oneOf xs, fun hn => ?_⟩
  · rw [Tree.allows, allows_oneOf, allowsAny_iff]
    simp only [Tree.allows]
  · rw [Tree.allows, Tree.allows, allows_oneOf, allows_oneOf]
    exact h.allowsAny_eq follow v
  · rw [shape_oneOf]
    refine Shape.beq_self fun hm => ?_
    obtain ⟨s, hs, hm⟩ := Shape.exists_nodes_of_oneOf hm rfl
    obtain ⟨x, hx, rfl⟩ := List.mem_map.1 hs
    exact hn x hx (x.madeOf_of_mem_nodes _ hm)

/-- Zero of either sign, or texts or lists of them. -/
def signedZeros : List Constraint :=
  [.union [.literal (.number (.finite .zero)), .kind .string], .literal (.number (.finite FiniteDouble.zero.neg)),
    .array (.union [.format .email, .kind .string])]

/-- The two zeros and the two kinds of texts are each one alternative of the shape. -/
theorem oneOf_canonical_signedZeros :
    (∀ follow, (Tree.leaf (oneOf signedZeros)).allows follow .null =
      (Tree.leaf (oneOf [oneOf signedZeros])).allows follow .null) ∧
    ((oneOf signedZeros).shape == Shape.oneOf (signedZeros.map shape)) = true ∧
    (oneOf signedZeros).shape = .union [.literal (.number (.finite .zero)), .string, .array .string] := by
  obtain ⟨-, hrearranged, -, hshape⟩ := oneOf_canonical signedZeros
  refine ⟨fun follow => ?_, hshape ?_, rfl⟩
  · have hr : Rearranged signedZeros [oneOf signedZeros] := by
      have hg := Rearranged.groupedOnce signedZeros []
      rwa [List.append_nil] at hg
    exact hrearranged _ hr follow .null
  · simp [signedZeros, literals, literalsAll]

end Constraint

end Assay
