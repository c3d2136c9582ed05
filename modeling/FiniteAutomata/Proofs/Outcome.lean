import Mathlib.Data.List.Forall2
import FiniteAutomata.Logged

/-! # Chains of outcomes

A chain that ended in a value had a value at every link. These lemmas read such chains backwards.
-/
namespace FiniteAutomata
namespace Outcome
variable {ε α β : Type}

theorem ok_bind {α β : Type} (a : α) (f : α → Outcome β) : ((.ok a : Outcome α) >>= f) = f a := rfl

theorem bind_eq_ok {x : Except ε α} {f : α → Except ε β} {b : β} :
    x >>= f = .ok b ↔ ∃ a, x = .ok a ∧ f a = .ok b := by
  cases x with
  | error e => simp [bind, Except.bind]
  | ok a => simp [bind, Except.bind]

theorem map_eq_ok {x : Except ε α} {f : α → β} {b : β} :
    f <$> x = .ok b ↔ ∃ a, x = .ok a ∧ f a = b := by
  cases x with
  | error e => simp [Functor.map, Except.map]
  | ok a => simp [Functor.map, Except.map]

@[simp] theorem pure_eq_ok {a b : α} : (pure a : Except ε α) = .ok b ↔ a = b := by
  simp [pure, Except.pure]

theorem promised_eq_ok {f : Fault} {x : Option α} {a : α} :
    promised f x = .ok a ↔ x = some a := by
  cases x <;> simp

theorem mapM_eq_ok {f : α → Except ε β} {xs : List α} {ys : List β} :
    xs.mapM f = .ok ys ↔ List.Forall₂ (fun x y => f x = .ok y) xs ys := by
  induction xs generalizing ys with
  | nil =>
    rw [List.mapM_nil, pure_eq_ok, List.forall₂_nil_left_iff]
    exact eq_comm
  | cons x xs ih =>
    rw [List.mapM_cons, bind_eq_ok]
    constructor
    · rintro ⟨y, hy, h⟩
      obtain ⟨zs, hzs, h⟩ := bind_eq_ok.mp h
      obtain rfl := pure_eq_ok.mp h
      exact .cons hy (ih.mp hzs)
    · intro h
      cases h with
      | cons hy hzs => exact ⟨_, hy, bind_eq_ok.mpr ⟨_, ih.mpr hzs, rfl⟩⟩

theorem exists_mapM_eq_ok {f : α → Except ε β} {xs : List α} (h : ∀ x ∈ xs, ∃ y, f x = .ok y) :
    ∃ ys, xs.mapM f = .ok ys := by
  induction xs with
  | nil => exact ⟨[], rfl⟩
  | cons x xs ih =>
    obtain ⟨y, hy⟩ := h x (List.mem_cons_self ..)
    obtain ⟨ys, hys⟩ := ih fun z hz => h z (List.mem_cons_of_mem _ hz)
    exact ⟨y :: ys, mapM_eq_ok.mpr (.cons hy (mapM_eq_ok.mp hys))⟩

theorem exists_of_mapM_eq_error {f : α → Except ε β} {xs : List α} {e : ε}
    (h : xs.mapM f = .error e) : ∃ x ∈ xs, f x = .error e := by
  induction xs with
  | nil => cases h
  | cons x xs ih =>
    rw [List.mapM_cons] at h
    cases hx : f x with
    | error e' =>
      rw [hx] at h
      cases h
      exact ⟨x, List.mem_cons_self .., hx⟩
    | ok y =>
      cases hxs : xs.mapM f with
      | error e' =>
        rw [hx, hxs] at h
        cases h
        obtain ⟨z, hz, hf⟩ := ih hxs
        exact ⟨z, List.mem_cons_of_mem _ hz, hf⟩
      | ok ys =>
        rw [hx, hxs] at h
        cases h

theorem foldlM_cons_eq_ok {f : β → α → Except ε β} {x : α} {xs : List α} {b d : β} :
    (x :: xs).foldlM f b = .ok d ↔ ∃ c, f b x = .ok c ∧ xs.foldlM f c = .ok d := by
  rw [List.foldlM_cons, bind_eq_ok]

theorem of_ofFnM_eq_ok {n : Nat} {f : Fin n → Except ε α} {v : Vector α n}
    (h : Vector.ofFnM f = .ok v) (i : Fin n) : f i = .ok (v.get i) := by
  induction n with
  | zero => exact i.elim0
  | succ n ih =>
    rw [Vector.ofFnM_succ] at h
    obtain ⟨xs, hxs, h⟩ := bind_eq_ok.mp h
    obtain ⟨x, hx, h⟩ := bind_eq_ok.mp h
    obtain rfl := pure_eq_ok.mp h
    cases i using Fin.lastCases with
    | last =>
      have hlast : (xs.push x).get (Fin.last n) = x := Vector.getElem_push_last
      rwa [hlast]
    | cast i =>
      have hcast : (xs.push x).get i.castSucc = xs.get i := Vector.getElem_push_lt i.isLt
      rw [hcast]
      exact ih hxs i

theorem exists_ofFnM_eq_ok {n : Nat} {f : Fin n → Except ε α} (h : ∀ i, ∃ x, f i = .ok x) :
    ∃ v, Vector.ofFnM f = .ok v := by
  induction n with
  | zero => exact ⟨#v[], Vector.ofFnM_zero⟩
  | succ n ih =>
    obtain ⟨xs, hxs⟩ := ih fun i => h i.castSucc
    obtain ⟨x, hx⟩ := h (Fin.last n)
    refine ⟨xs.push x, ?_⟩
    rw [Vector.ofFnM_succ]
    exact bind_eq_ok.mpr ⟨xs, hxs, bind_eq_ok.mpr ⟨x, hx, rfl⟩⟩

end Outcome

theorem Logged.mem_log_bind {α β : Type} {x : Logged α} {f : α → Logged β} {e : Event} :
    e ∈ (x >>= f).log ↔ e ∈ x.log ∨ ∃ a, x.outcome = .ok a ∧ e ∈ (f a).log := by
  rw [log_bind]
  cases x.outcome <;> simp

end FiniteAutomata
