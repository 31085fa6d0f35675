import AffineCalls.Proofs.Registry.Growth

/-!
# Bijections and their inverses

Where pairs arise only from declarations, the pairing of names mirrors the declarations:
each declared bijection has one partner, a declared bijection that leads back to it and has
its two sets exchanged, and nothing else is paired. Declaring and appending keep it so, as
both put registries together that declare different names.
-/

namespace AffineCalls

/-- One of two names is that of the inverse of the other, and nothing is known of the
monotonicity of the one that bears the longer name. -/
def Signature.Named (a : String) (f : Signature) (b : String) (g : Signature) : Prop :=
  (b = inverseName a ∧ g.monotonicity = .none) ∨ (a = inverseName b ∧ f.monotonicity = .none)

/-- The declarations `f` of `a` and `g` of `b` are those of a bijection and its inverse. -/
structure Signature.Mates (a : String) (f : Signature) (b : String) (g : Signature) : Prop where
  /-- The first function is a bijection. -/
  left : f.bijective = true
  /-- The second function is a bijection. -/
  right : g.bijective = true
  /-- The arguments of the second function are the results of the first one. -/
  domain : g.domain = f.range
  /-- The results of the second function are the arguments of the first one. -/
  range : g.range = f.domain
  /-- One name is made from the other. -/
  named : Signature.Named a f b g

/-- Being mates is symmetric. -/
theorem Signature.Mates.symm {a b : String} {f g : Signature} (h : Signature.Mates a f b g) :
    Signature.Mates b g a f :=
  ⟨h.right, h.left, h.range.symm, h.domain.symm, h.named.symm⟩

/-- Mates have different names. -/
theorem Signature.Mates.ne {a b : String} {f g : Signature} (h : Signature.Mates a f b g) :
    b ≠ a := by
  rintro rfl
  rcases h.named with ⟨hname, _⟩ | ⟨hname, _⟩ <;> exact Signature.inverseName_ne b hname.symm

/-- A bijection and the inverse that is declared for it are mates. -/
theorem Signature.mates_inverse {f : Signature} (hf : f.bijective = true) :
    Signature.Mates f.name f f.inverse.name f.inverse :=
  ⟨hf, rfl, rfl, rfl, .inl ⟨rfl, rfl⟩⟩

namespace Registry

/-- Both names are declared, as a bijection and its inverse. -/
def Mates (r : Registry) (a b : String) : Prop :=
  ∃ f g, r.function? a = some f ∧ r.function? b = some g ∧ Signature.Mates a f b g

/-- Names are paired exactly as declared bijections are with their inverses. -/
structure WellPaired (r : Registry) : Prop where
  /-- The partner of a name leads back to it, and the two are declared as mates. -/
  mates : ∀ a b, r.inverse? a = some b → r.inverse? b = some a ∧ r.Mates a b
  /-- Every declared bijection has a partner. -/
  partner : ∀ n f, r.function? n = some f → f.bijective = true → ∃ b, r.inverse? n = some b

variable {r o s : Registry} {f : Signature}

/-- Mates stay mates where no declaration is changed. -/
theorem Mates.mono {a b : String} (h : r.Mates a b)
    (hle : ∀ n f, r.function? n = some f → s.function? n = some f) : s.Mates a b := by
  obtain ⟨f, g, hf, hg, hmates⟩ := h
  exact ⟨f, g, hle a f hf, hle b g hg, hmates⟩

/-- The registry without declarations is well paired. -/
theorem wellPaired_empty : WellPaired ∅ :=
  ⟨nofun, nofun⟩

/-- A name that is paired is declared. -/
theorem WellPaired.declared (hr : r.WellPaired) {a b : String} (h : r.inverse? a = some b) :
    ∃ f, r.function? a = some f := by
  obtain ⟨_, f, _, hf, _⟩ := hr.mates a b h
  exact ⟨f, hf⟩

/-! ## Putting registries together -/

/-- Of two well paired registries that declare different names, one pairs no name that the
other one pairs. -/
theorem WellPaired.unpaired_of_apart (hr : r.WellPaired) (ho : o.WellPaired) (hapart : r.Apart o)
    {n m : String} (h : r.inverse? n = some m) : o.inverse? n = none := by
  obtain ⟨f, hf⟩ := hr.declared h
  cases hn : o.inverse? n with
  | none => rfl
  | some m' =>
    obtain ⟨g, hg⟩ := ho.declared hn
    rcases hapart n with hnone | hnone
    · exact nomatch hnone.symm.trans hf
    · exact nomatch hnone.symm.trans hg

/-- Two well paired registries that declare different names are well paired together. -/
theorem WellPaired.union (hr : r.WellPaired) (ho : o.WellPaired) (hapart : r.Apart o) :
    (r ∪ o).WellPaired := by
  constructor
  · intro a b hab
    rw [inverse?_union] at hab ⊢
    rcases Option.or_eq_some_iff.mp hab with hab | ⟨_, hab⟩
    · obtain ⟨hba, hmates⟩ := ho.mates a b hab
      exact ⟨Option.or_eq_some_iff.mpr (.inl hba), hmates.mono fun _ _ => function?_union_right⟩
    · obtain ⟨hba, hmates⟩ := hr.mates a b hab
      refine ⟨?_, hmates.mono fun _ _ => hapart.function?_union_left⟩
      -- The second registry does not pair the partner anew.
      exact Option.or_eq_some_iff.mpr (.inr ⟨hr.unpaired_of_apart ho hapart hba, hba⟩)
  · intro n f hf hbijective
    rw [function?_union] at hf
    rw [inverse?_union]
    rcases Option.or_eq_some_iff.mp hf with hf | ⟨_, hf⟩
    · obtain ⟨b, hb⟩ := ho.partner n f hf hbijective
      exact ⟨b, Option.or_eq_some_iff.mpr (.inl hb)⟩
    · obtain ⟨b, hb⟩ := hr.partner n f hf hbijective
      cases o.inverse? n with
      | none => exact ⟨b, hb⟩
      | some b' => exact ⟨b', rfl⟩

/-- A function that is no bijection is declared alone without a partner. -/
theorem wellPaired_single_of_plain (hf : f.bijective = false) : (single f).WellPaired := by
  refine ⟨fun a b hab => ?_, fun n g hg hbijective => ?_⟩
  · have hnone : (put ∅ f).inverse? a = none := rfl
    rw [single, if_neg (by rw [hf]; decide), hnone] at hab
    cases hab
  · rw [function?_single_of_plain hf] at hg
    by_cases hn : f.name = n
    · rw [if_pos hn] at hg
      cases hg
      exact absurd hbijective (by rw [hf]; decide)
    · rw [if_neg hn] at hg
      cases hg

/-- A bijection and its inverse are declared alone as partners of each other. -/
theorem wellPaired_single_of_bijective (hf : f.bijective = true) : (single f).WellPaired := by
  have hne : f.inverse.name ≠ f.name := Signature.inverseName_ne f.name
  have hmates := Signature.mates_inverse hf
  have hself : (single f).function? f.name = some f := by
    rw [function?_single_of_bijective hf, if_neg hne, if_pos rfl]
  have hother : (single f).function? f.inverse.name = some f.inverse := by
    rw [function?_single_of_bijective hf, if_pos rfl]
  constructor
  · intro a b hab
    rcases (inverse?_single_eq_some.mp hab).2 with ⟨rfl, rfl⟩ | ⟨rfl, rfl⟩
    · have hback := inverse?_single_eq_some.mpr ⟨hf, .inr ⟨rfl, rfl⟩⟩
      exact ⟨hback, _, _, hself, hother, hmates⟩
    · have hback := inverse?_single_eq_some.mpr ⟨hf, .inl ⟨rfl, rfl⟩⟩
      exact ⟨hback, _, _, hother, hself, hmates.symm⟩
  · intro n g hg _
    have hn : (single f).contains n = true := by
      rw [contains_eq_isSome, hg]
      rfl
    rcases contains_single.mp hn with rfl | ⟨_, rfl⟩
    · exact ⟨_, inverse?_single_eq_some.mpr ⟨hf, .inl ⟨rfl, rfl⟩⟩⟩
    · exact ⟨_, inverse?_single_eq_some.mpr ⟨hf, .inr ⟨rfl, rfl⟩⟩⟩

/-- The registry of one function is well paired. -/
theorem wellPaired_single (f : Signature) : (single f).WellPaired := by
  cases hf : f.bijective with
  | false => exact wellPaired_single_of_plain hf
  | true => exact wellPaired_single_of_bijective hf

/-- Declaring keeps a registry well paired, as the declarations alone are. -/
theorem WellPaired.declare (hr : r.WellPaired) (h : r.declare f = .ok s) : s.WellPaired := by
  obtain ⟨hapart, rfl⟩ := declare_eq_ok_iff_apart.mp h
  exact hr.union (wellPaired_single f) hapart

/-- Appending keeps a registry well paired. -/
theorem WellPaired.append (hr : r.WellPaired) (ho : o.WellPaired) (h : r.append o = .ok s) :
    s.WellPaired := by
  obtain ⟨hapart, _, rfl⟩ := append_eq_ok.mp h
  exact hr.union ho hapart

/-! ## Runs -/

/-- Without free pairing, every registry that is reached is well paired. -/
theorem Reached.wellPaired (h : r.Reached fun _ _ => False) : r.WellPaired := by
  induction h with
  | empty => exact wellPaired_empty
  | ofSignature h => exact wellPaired_empty.declare h
  | declare _ f ih => exact (InPlace.atomic_declare f).after_induction ih fun _ => ih.declare
  | append _ _ ih iho => exact (InPlace.atomic_append _).after_induction ih fun _ => ih.append iho
  | reset _ _ => exact wellPaired_empty
  | pair _ hab _ => exact hab.elim

/-- In every registry that is built without free pairing: a name that is paired is declared;
a declared function that is no bijection is not paired; and a declared bijection is paired
with exactly one other name, which is declared as a bijection with the two sets exchanged
and leads back. One of the two names is that of the inverse of the other one, and nothing
is known of the monotonicity of the function that bears it. -/
theorem declared_pairs (h : r.Reached fun _ _ => False) :
    (∀ a b, r.inverse? a = some b → r.contains a = true ∧ r.contains b = true) ∧
    (∀ n f, r.function? n = some f → f.bijective = false →
      ∀ m, r.inverse? n ≠ some m ∧ r.inverse? m ≠ some n) ∧
    ∀ n f, r.function? n = some f → f.bijective = true →
      ∃ m g, (∀ k, r.inverse? n = some k ↔ k = m) ∧ (∀ k, r.inverse? k = some n ↔ k = m) ∧
        m ≠ n ∧ r.function? m = some g ∧ g.bijective = true ∧ g.domain = f.range ∧
        g.range = f.domain ∧ Signature.Named n f m g := by
  have hwell := h.wellPaired
  refine ⟨fun a b hab => ?_, fun n f hf hplain m => ?_, fun n f hf hbijective => ?_⟩
  · obtain ⟨_, f, g, hf, hg, _⟩ := hwell.mates a b hab
    rw [contains_eq_isSome, contains_eq_isSome, hf, hg]
    exact ⟨rfl, rfl⟩
  · have hnone : ∀ m, r.inverse? n ≠ some m := by
      intro m hm
      obtain ⟨_, f', _, hf', _, hmates⟩ := hwell.mates n m hm
      cases hf.symm.trans hf'
      exact absurd hmates.left (by rw [hplain]; decide)
    exact ⟨hnone m, fun hm => hnone m (hwell.mates m n hm).1⟩
  · obtain ⟨m, hm⟩ := hwell.partner n f hf hbijective
    obtain ⟨hback, f', g, hf', hg, hmates⟩ := hwell.mates n m hm
    cases hf.symm.trans hf'
    have honly : ∀ k, r.inverse? n = some k ↔ k = m := fun k =>
      ⟨fun hk => Option.some.inj (hk.symm.trans hm), fun hk => hk ▸ hm⟩
    refine ⟨m, g, honly, fun k => ⟨fun hk => ?_, fun hk => hk ▸ hback⟩, hmates.ne, hg,
      hmates.right, hmates.domain, hmates.range, hmates.named⟩
    exact (honly k).mp (hwell.mates k n hk).1

/-- After the bijection `p` has been appended, `p_inv` is declared as its partner with the two
sets exchanged. -/
theorem declared_pairs_appended :
    ∃ (r : Registry) (g : Signature), r.inverse? "p" = some "p_inv" ∧
      r.inverse? "p_inv" = some "p" ∧ r.function? "p_inv" = some g ∧
        g.domain = .ofNames ["j"] ∧ g.range = .ofNames ["i"] := by
  have hmade : ofSignature ⟨"p", .ofNames ["i"], .ofNames ["j"], true, .nondecreasing⟩ = .ok _ :=
    declare_eq_ok.mpr ⟨rfl, .inr ⟨rfl, rfl, rfl⟩⟩
  have hreached : Reached (fun _ _ => False) _ := .append .empty (.ofSignature hmade)
  obtain ⟨m, g, honly, hback, _, hg, _, hdomain, hrange, _⟩ :=
    (declared_pairs hreached).2.2 "p" ⟨"p", .ofNames ["i"], .ofNames ["j"], true, .nondecreasing⟩
      rfl rfl
  obtain rfl : "p_inv" = m := (honly "p_inv").mp rfl
  exact ⟨_, g, (honly _).mpr rfl, (hback _).mpr rfl, hg, hdomain, hrange⟩

end Registry

end AffineCalls
