import Mathlib.Data.List.Forall2
import FiniteAutomata.Json.Record
import FiniteAutomata.Proofs.Json.Reading

/-! # Written records are read back

A record with distinct keys has its fields under their names, and each kind of field is read back from
what it is written as.
-/
namespace FiniteAutomata

/-- Written as a numeral and read back, the first number becomes the second. -/
def Rereads (x y : Float) : Prop := x.isFinite = true ∧ (Numeral.ofFloat x).float? = some y

namespace Json
variable {ms : List (String × Json)}

theorem filter_key_eq (h : (ms.map Prod.fst).Nodup) {x : String × Json} (hx : x ∈ ms) :
    ms.filter (fun y => y.1 == x.1) = [x] := by
  induction ms with
  | nil => cases hx
  | cons y ms ih =>
    obtain ⟨hy, hms⟩ := List.nodup_cons.mp h
    rcases List.mem_cons.mp hx with rfl | hx
    · rw [List.filter_cons_of_pos (by simp), List.filter_eq_nil_iff.mpr]
      intro z hz heq
      rw [beq_iff_eq] at heq
      exact hy (heq ▸ List.mem_map_of_mem hz)
    · have hne : y.1 ≠ x.1 := fun heq => hy (heq ▸ List.mem_map_of_mem hx)
      rw [List.filter_cons_of_neg (by simpa using hne)]
      exact ih hms hx

theorem member?_record (h : (ms.map Prod.fst).Nodup) {x : String × Json} (hx : x ∈ ms) :
    member? (ms.map fun y => (some y.1, y.2)) x.1 = some (some x.2) := by
  have hfilter : (ms.map fun y => ((some y.1, y.2) : Quoted × Json)).filter (·.1 == some x.1) =
      [(some x.1, x.2)] := by
    have hcomp : ((fun y => y.1 == some x.1) ∘ fun y => ((some y.1, y.2) : Quoted × Json)) =
        fun y : String × Json => y.1 == x.1 := rfl
    rw [List.filter_map, hcomp, filter_key_eq h hx, List.map_singleton]
  rw [member?, hfilter]

theorem mapM_eq_some_of_forall₂ {α β : Type} {f : α → Option β} {xs : List α} {ys : List β}
    (h : List.Forall₂ (fun x y => f x = some y) xs ys) : xs.mapM f = some ys := by
  induction h with
  | nil => rfl
  | cons hx _ ih =>
    rw [List.mapM_cons, hx, ih]
    rfl

theorem fields?_record (h : (ms.map Prod.fst).Nodup) :
    (record ms).fields? (ms.map Prod.fst) = some (ms.map fun x => some x.2) := by
  have hkeys : (ms.map fun y => ((some y.1, y.2) : Quoted × Json)).any (·.1.isNone) = false := by
    simp
  have hrecord : record ms = .obj (ms.map fun y => (some y.1, y.2)) := rfl
  rw [hrecord, fields?, hkeys, if_neg Bool.false_ne_true]
  refine mapM_eq_some_of_forall₂ ?_
  rw [List.forall₂_map_left_iff, List.forall₂_map_right_iff, List.forall₂_same]
  exact fun x hx => member?_record h hx

theorem natUpTo?_nat {bound n : Nat} (h : n ≤ bound) : (nat n).natUpTo? bound = some n := by
  have hnatural : (Numeral.ofNat n).natural? = some n := by
    rw [Numeral.natural?, if_neg (by simp [Numeral.ofNat]), Numeral.ofNat, Digit.toNat_ofNat]
  simp [nat, natUpTo?, hnatural, h]

theorem char?_char (c : Char) : (char c).char? = some c := by
  simp [char, text, char?, text?]

theorem float?_float {x y : Float} (h : Rereads x y) : (float x).float? = some y := by
  rw [float, if_pos h.1]
  exact h.2

theorem list?_list {α β : Type} {toJson : α → Json} {read : Json → Option β} {R : α → β → Prop}
    (h : ∀ x y, R x y → read (toJson x) = some y) {xs : List α} {ys : List β}
    (hxs : List.Forall₂ R xs ys) : (list toJson xs).list? read = some ys := by
  refine mapM_eq_some_of_forall₂ ?_
  rw [List.forall₂_map_left_iff]
  exact hxs.imp h

theorem Reads.nat (n : Nat) : (Json.nat n).Reads := .num (Numeral.wellFormed_ofNat n)

theorem Reads.char (c : Char) : (Json.char c).Reads := .text c.toString

theorem Reads.float {x : Float} (h : x.isFinite = true) : (Json.float x).Reads := by
  rw [Json.float, if_pos h]
  exact .num (Numeral.wellFormed_ofFloat x)

end Json
end FiniteAutomata
