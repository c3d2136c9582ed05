import FiniteAutomata.Table
import FiniteAutomata.Proofs.Outcome

/-! # Entries under checks

What is written into a table under checks is there afterwards, and what is not written stays as it was.
No check fails as long as the places lie within the table.
-/
namespace FiniteAutomata

theorem Outcome.anyM_eq_ok {α β : Type} {f : α → Outcome Bool} {g : β → Bool} {xs : List α} {ys : List β}
    (h : List.Forall₂ (fun x y => f x = .ok (g y)) xs ys) : xs.anyM f = .ok (ys.any g) := by
  induction h with
  | nil => rfl
  | @cons x y xs ys hxy _ ih =>
    rw [List.anyM, hxy, List.any_cons]
    cases g y with
    | true => rfl
    | false => exact ih

namespace Table

theorem entry_eq_ok {α : Type} {xs : Array α} {i : Nat} {a : α} :
    entry xs i = .ok a ↔ xs[i]? = some a := Outcome.promised_eq_ok

theorem store_eq_ok {α : Type} {xs : Array α} {i : Nat} {a b : α} (h : xs[i]? = some b) :
    store xs i a = .ok (xs.setIfInBounds i a) := if_pos (Array.getElem?_eq_some_iff.mp h).1

theorem getElem?_setIfInBounds {α : Type} {xs : Array α} (i : Nat) (a : α) {k : Nat} {b : α}
    (h : xs[k]? = some b) : (xs.setIfInBounds i a)[k]? = some (if i = k then a else b) := by
  rw [Array.getElem?_setIfInBounds]
  split
  · rename_i hik
    rw [if_pos (hik ▸ (Array.getElem?_eq_some_iff.mp h).1)]
  · exact h

/-- Writing entries one after the other changes these and no others, if what is written twice is the
same. -/
theorem exists_foldlM_store {α β : Type} (index : β → Nat) (value : β → α) (es : List β)
    (xs : Array α) (h : ∀ e ∈ es, index e < xs.size)
    (hsame : ∀ e ∈ es, ∀ e' ∈ es, index e = index e' → value e = value e') :
    ∃ ys, es.foldlM (fun ys e => store ys (index e) (value e)) xs = .ok ys ∧ ys.size = xs.size ∧
      (∀ e ∈ es, ys[index e]? = some (value e)) ∧
      ∀ i, (∀ e ∈ es, index e ≠ i) → ys[i]? = xs[i]? := by
  induction es generalizing xs with
  | nil => exact ⟨xs, rfl, rfl, fun e he => absurd he List.not_mem_nil, fun _ _ => rfl⟩
  | cons e es ih =>
    have hlt := h e (List.mem_cons_self ..)
    obtain ⟨ys, hys, hsize, hwritten, hkept⟩ := ih (xs.setIfInBounds (index e) (value e))
      (fun e' he' => by simpa using h e' (List.mem_cons_of_mem _ he'))
      fun e' he' e'' he'' => hsame e' (List.mem_cons_of_mem _ he') e'' (List.mem_cons_of_mem _ he'')
    refine ⟨ys, ?_, by simpa using hsize, ?_, ?_⟩
    · rw [List.foldlM_cons, store_eq_ok (Array.getElem?_eq_getElem hlt)]
      exact hys
    · intro e' he'
      by_cases hmem : ∃ e'' ∈ es, index e'' = index e'
      · obtain ⟨e'', he'', hindex⟩ := hmem
        rw [← hindex, hwritten e'' he'', hsame e'' (List.mem_cons_of_mem _ he'') e' he' hindex]
      · have hhead : e' = e := by
          rcases List.mem_cons.mp he' with heq | hrest
          · exact heq
          · exact absurd ⟨e', hrest, rfl⟩ hmem
        subst hhead
        rw [hkept _ fun e'' he'' hindex => hmem ⟨e'', he'', hindex⟩,
          Array.getElem?_setIfInBounds_self_of_lt hlt]
    · intro i hi
      rw [hkept i fun e' he' => hi e' (List.mem_cons_of_mem _ he'),
        Array.getElem?_setIfInBounds_ne (hi e (List.mem_cons_self ..))]

/-- Lists without common places get one number each, and all other entries are left. -/
theorem exists_foldlM_number {α β : Type} (index : β → Nat) (value : Nat → α) {classes : List (List β)}
    (hapart : classes.Pairwise fun c d => ∀ x ∈ c, ∀ y ∈ d, index x ≠ index y) (k : Nat) (xs : Array α)
    (hlt : ∀ c ∈ classes, ∀ x ∈ c, index x < xs.size) :
    ∃ ys, (classes.zipIdx k).foldlM
        (fun ys e => e.1.foldlM (fun ys x => store ys (index x) (value e.2)) ys) xs = .ok ys ∧
      ys.size = xs.size ∧
      (∀ l c, classes[l]? = some c → ∀ x ∈ c, ys[index x]? = some (value (k + l))) ∧
      ∀ i, (∀ c ∈ classes, ∀ x ∈ c, index x ≠ i) → ys[i]? = xs[i]? := by
  induction classes generalizing k xs with
  | nil =>
    refine ⟨xs, rfl, rfl, ?_, fun _ _ => rfl⟩
    intro l c hl
    cases hl
  | cons c classes ih =>
    obtain ⟨hfirst, hapart⟩ := List.pairwise_cons.mp hapart
    obtain ⟨zs, hzs, hsize, hwritten, hkept⟩ := exists_foldlM_store index (fun _ => value k) c xs
      (hlt c (List.mem_cons_self ..)) fun _ _ _ _ _ => rfl
    obtain ⟨ys, hys, hsize', hnumbered, hleft⟩ := ih hapart (k + 1) zs fun d hd x hx =>
      hsize ▸ hlt d (List.mem_cons_of_mem c hd) x hx
    refine ⟨ys, ?_, hsize'.trans hsize, ?_, ?_⟩
    · rw [List.zipIdx_cons, List.foldlM_cons]
      exact Outcome.bind_eq_ok.mpr ⟨zs, hzs, hys⟩
    · intro l d hl x hx
      cases l with
      | zero =>
        obtain rfl : c = d := Option.some.inj hl
        rw [hleft (index x) fun d hd y hy he => hfirst d hd x hx y hy he.symm]
        exact hwritten x hx
      | succ l =>
        rw [hnumbered l d hl x hx, Nat.add_right_comm, Nat.add_assoc]
    · intro i hi
      rw [hleft i fun d hd => hi d (List.mem_cons_of_mem c hd)]
      exact hkept i (hi c (List.mem_cons_self ..))

end Table
end FiniteAutomata
