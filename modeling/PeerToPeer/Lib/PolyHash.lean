import Mathlib.Algebra.Polynomial.Roots
import Mathlib.Data.Set.Card

/-!
Polynomial hashing: a list of coefficients, evaluated at a secret point.

The hash of a list is the value of a polynomial without constant term. Lists
without zeros have different polynomials, so over a domain the hashes of two such
lists differ by a given amount at no more points than the longer list has
elements.
-/

namespace PeerToPeer.Lib

open Polynomial

section Semiring

variable {R S : Type*} [CommSemiring R] [CommSemiring S]

/-- The hash of a list at the point `r`, by Horner's rule. -/
def polyHash (r : R) (cs : List R) : R := cs.foldl (fun acc c => (acc + c) * r) 0

@[simp] theorem polyHash_nil (r : R) : polyHash r [] = 0 := rfl

@[simp] theorem polyHash_concat (r : R) (cs : List R) (c : R) :
    polyHash r (cs ++ [c]) = (polyHash r cs + c) * r := by
  simp [polyHash]

theorem map_polyHash (f : R →+* S) (r : R) (cs : List R) :
    f (polyHash r cs) = polyHash (f r) (cs.map f) := by
  induction cs using List.reverseRecOn with
  | nil => simp
  | append_singleton cs c ih => simp [ih]

/-- The hash as a sum of powers. -/
theorem polyHash_map_range (r : R) (f : ℕ → R) (n : ℕ) :
    polyHash r ((List.range n).map f) = ∑ i ∈ Finset.range n, f i * r ^ (n - i) := by
  induction n with
  | zero => simp
  | succ n ih =>
      rw [List.range_succ, List.map_append, List.map_singleton, polyHash_concat, ih,
        Finset.sum_range_succ, add_mul, Finset.sum_mul, Nat.add_sub_cancel_left, pow_one]
      congr 1
      refine Finset.sum_congr rfl fun i hi => ?_
      rw [Nat.succ_sub (Finset.mem_range.mp hi).le, pow_succ, mul_assoc]

/-- The polynomial whose values are the hashes of a list. -/
noncomputable def hashPoly (cs : List R) : R[X] := polyHash X (cs.map C)

theorem hashPoly_concat (cs : List R) (c : R) :
    hashPoly (cs ++ [c]) = (hashPoly cs + C c) * X := by
  simp [hashPoly]

theorem eval_hashPoly (r : R) (cs : List R) : (hashPoly cs).eval r = polyHash r cs := by
  have h := map_polyHash (evalRingHom r) X (cs.map C)
  simpa [hashPoly, Function.comp_def] using h

theorem coeff_zero_hashPoly (cs : List R) : (hashPoly cs).coeff 0 = 0 := by
  induction cs using List.reverseRecOn with
  | nil => simp [hashPoly]
  | append_singleton cs c _ => simp [hashPoly_concat]

theorem natDegree_hashPoly_le (cs : List R) : (hashPoly cs).natDegree ≤ cs.length := by
  induction cs using List.reverseRecOn with
  | nil => simp [hashPoly]
  | append_singleton cs c ih =>
      calc (hashPoly (cs ++ [c])).natDegree
          ≤ (hashPoly cs + C c).natDegree + (X : R[X]).natDegree := by
            rw [hashPoly_concat]
            exact natDegree_mul_le
        _ ≤ cs.length + 1 := by
            rw [natDegree_add_C]
            exact Nat.add_le_add ih natDegree_X_le
        _ = (cs ++ [c]).length := by simp

end Semiring

section Domain

variable {R : Type*} [CommRing R] [IsDomain R]

/-- The constant term that a factor `X` has brought up by one degree. -/
theorem hashPoly_concat_inj {cs ds : List R} {c d : R}
    (h : hashPoly (cs ++ [c]) = hashPoly (ds ++ [d])) : hashPoly cs = hashPoly ds ∧ c = d := by
  rw [hashPoly_concat, hashPoly_concat] at h
  have hsum := mul_right_cancel₀ X_ne_zero h
  have hcd : c = d := by
    have hcoeff := congrArg (coeff · 0) hsum
    simpa [coeff_zero_hashPoly] using hcoeff
  subst hcd
  exact ⟨add_right_cancel hsum, rfl⟩

theorem hashPoly_concat_ne_zero {cs : List R} {c : R} (hc : c ≠ 0) :
    hashPoly (cs ++ [c]) ≠ 0 := by
  intro h
  have hnil : hashPoly ([] ++ [0] : List R) = 0 := by
    rw [hashPoly_concat]
    simp [hashPoly]
  exact hc (hashPoly_concat_inj (h.trans hnil.symm)).2

/-- Lists without zeros are told apart by their polynomials. -/
theorem hashPoly_inj {cs ds : List R} (hcs : ∀ c ∈ cs, c ≠ 0) (hds : ∀ d ∈ ds, d ≠ 0)
    (h : hashPoly cs = hashPoly ds) : cs = ds := by
  induction cs using List.reverseRecOn generalizing ds with
  | nil =>
      rcases List.eq_nil_or_concat' ds with rfl | ⟨ds, d, rfl⟩
      · rfl
      · exact absurd h.symm (hashPoly_concat_ne_zero (hds d (by simp)))
  | append_singleton cs c ih =>
      rcases List.eq_nil_or_concat' ds with rfl | ⟨ds, d, rfl⟩
      · exact absurd h (hashPoly_concat_ne_zero (hcs c (by simp)))
      · obtain ⟨hinit, rfl⟩ := hashPoly_concat_inj h
        rw [ih (fun c hc => hcs c (by simp [hc])) (fun d hd => hds d (by simp [hd])) hinit]

/-- The points at which the hashes of two lists differ by `k`. -/
theorem encard_polyHash_sub_le {cs ds : List R} (hcs : ∀ c ∈ cs, c ≠ 0) (hds : ∀ d ∈ ds, d ≠ 0)
    (hne : cs ≠ ds) {n : ℕ} (hcn : cs.length ≤ n) (hdn : ds.length ≤ n) (k : R) :
    {r | polyHash r cs - polyHash r ds = k}.encard ≤ n := by
  classical
  set P : R[X] := hashPoly cs - hashPoly ds - C k with hP
  have hP0 : P ≠ 0 := by
    intro h0
    have hk : k = 0 := by
      have hcoeff := congrArg (coeff · 0) h0
      simpa [hP, coeff_zero_hashPoly] using hcoeff
    rw [hP, hk, C_0, sub_zero, sub_eq_zero] at h0
    exact hne (hashPoly_inj hcs hds h0)
  have hdegree : P.natDegree ≤ n := by
    rw [hP, natDegree_sub_C]
    exact (natDegree_sub_le_of_le ((natDegree_hashPoly_le cs).trans hcn)
      ((natDegree_hashPoly_le ds).trans hdn)).trans (max_self n).le
  have hroots : {r | polyHash r cs - polyHash r ds = k} ⊆ P.roots.toFinset := by
    intro r hr
    rw [Set.mem_ofPred_eq] at hr
    rw [Finset.mem_coe, Multiset.mem_toFinset, mem_roots hP0, IsRoot, hP]
    simp [eval_hashPoly, hr]
  calc {r | polyHash r cs - polyHash r ds = k}.encard
      ≤ (P.roots.toFinset : Set R).encard := Set.encard_le_encard hroots
    _ = P.roots.toFinset.card := Set.encard_coe_eq_coe_finsetCard _
    _ ≤ n := by
      exact_mod_cast (Multiset.toFinset_card_le _).trans ((card_roots' P).trans hdegree)

end Domain

end PeerToPeer.Lib
