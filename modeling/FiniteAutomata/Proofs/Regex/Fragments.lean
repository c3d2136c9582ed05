import Mathlib.Computability.RegularExpressions
import FiniteAutomata.Regex.Thompson
import FiniteAutomata.Proofs.Path
import FiniteAutomata.Proofs.WellFormed

/-! # Fragments and the words they read

The transitions of a fragment stay among the states that were made while it was built, so that a path
through a larger part passes from one fragment to another only by the epsilon transitions that were
added to join them.
-/
namespace FiniteAutomata
namespace Regex

/-- The states with numbers from `lo` on and below `hi`, with their transitions, read the words of an
expression from the entry of the fragment to its exit. -/
structure Part (lo hi : Nat) (ts : List Transition) (f : Fragment) (P : RegularExpression Char) :
    Prop where
  small : hi ≤ UInt32.size
  entry : lo ≤ f.entry ∧ f.entry < hi
  exit : lo ≤ f.exit ∧ f.exit < hi
  inside : ∀ t ∈ ts, (lo ≤ t.source.toNat ∧ t.source.toNat < hi) ∧
    lo ≤ t.target.toNat ∧ t.target.toNat < hi
  reads : ∀ w, Reads ts (.ofNat f.entry) w (.ofNat f.exit) ↔ w ∈ P.matches'

open Automaton (toNat_ofNat)

namespace Part
variable {lo mid hi : Nat} {ts us : List Transition} {f g : Fragment}
  {P Q : RegularExpression Char}

theorem toNat_entry (h : Part lo hi ts f P) : (UInt32.ofNat f.entry).toNat = f.entry :=
  toNat_ofNat h.small h.entry.2

theorem toNat_exit (h : Part lo hi ts f P) : (UInt32.ofNat f.exit).toNat = f.exit :=
  toNat_ofNat h.small h.exit.2

theorem symbol (hs : lo + 2 ≤ UInt32.size) (c : Char) :
    Part lo (lo + 2) [⟨.ofNat lo, .ofNat (lo + 1), .symbol c⟩] ⟨lo, lo + 1⟩ (.char c) := by
  have hlo : (UInt32.ofNat lo).toNat = lo := toNat_ofNat hs (by omega)
  have hnext : (UInt32.ofNat (lo + 1)).toNat = lo + 1 := toNat_ofNat hs (by omega)
  have hne : UInt32.ofNat lo ≠ UInt32.ofNat (lo + 1) := by
    intro he
    rw [he] at hlo
    omega
  refine ⟨hs, ⟨Nat.le_refl lo, by simp⟩, ⟨by simp, Nat.lt_succ_self _⟩, ?_, ?_⟩
  · intro t ht
    obtain rfl := List.mem_singleton.mp ht
    rw [hlo, hnext]
    omega
  · intro w
    rw [RegularExpression.matches'_char]
    constructor
    · rintro ⟨ls, hp, rfl⟩
      generalize UInt32.ofNat (lo + 1) = q at hne hp
      cases hp with
      | nil => exact absurd rfl hne
      | cons ht hrest =>
        obtain ⟨-, rfl, rfl⟩ := Transition.mk.inj (List.mem_singleton.mp ht)
        obtain ⟨rfl, -⟩ := hrest.eq_of_stuck fun u hu => by
          obtain rfl := List.mem_singleton.mp hu
          exact hne
        rfl
    · rintro rfl
      exact (Reads.refl _ _).symbol (List.mem_singleton_self _)

/-- The transition that joins the first fragment to the second. -/
def concatJoint (f g : Fragment) : Transition := ⟨.ofNat f.exit, .ofNat g.entry, .epsilon⟩

/-- What is left to read behind a state of a concatenation. -/
def ConcatRest (mid : Nat) (ts us : List Transition) (f g : Fragment) (p : StateId)
    (w : List Char) : Prop :=
  (p.toNat < mid → ∃ u v, w = u ++ v ∧ Reads ts p u (.ofNat f.exit) ∧
    Reads us (.ofNat g.entry) v (.ofNat g.exit)) ∧
  (mid ≤ p.toNat → Reads us p w (.ofNat g.exit))

theorem concatRest_of_reads (hf : Part lo mid ts f P) (hg : Part mid hi us g Q) {p : StateId}
    {w : List Char} (h : Reads (ts ++ us ++ [concatJoint f g]) p w (.ofNat g.exit)) :
    ConcatRest mid ts us f g p w := by
  have hfexit := hf.exit
  have hgentry := hg.entry
  have hgexit := hg.exit
  refine h.backward ?_ ?_
  · have he := hg.toNat_exit
    exact ⟨fun hlt => by omega, fun _ => .refl _ _⟩
  · intro t ht w hw
    simp only [List.mem_append, List.mem_singleton] at ht
    rcases ht with (ht | ht) | rfl
    · have hin := hf.inside t ht
      refine ⟨fun _ => ?_, fun hle => by omega⟩
      obtain ⟨u, v, rfl, hu, hv⟩ := hw.1 hin.2.2
      exact ⟨spelled [t.label] ++ u, v, (List.append_assoc ..).symm, .cons ht hu, hv⟩
    · have hin := hg.inside t ht
      exact ⟨fun hlt => by omega, fun _ => .cons ht (hw.2 hin.2.1)⟩
    · have hs : (concatJoint f g).source.toNat = f.exit := hf.toNat_exit
      have ht : (concatJoint f g).target.toNat = g.entry := hg.toNat_entry
      refine ⟨fun _ => ?_, fun hle => by omega⟩
      exact ⟨[], w, rfl, .refl _ _, hw.2 (by omega)⟩

theorem concat (hf : Part lo mid ts f P) (hg : Part mid hi us g Q) :
    Part lo hi (ts ++ us ++ [concatJoint f g]) ⟨f.entry, g.exit⟩ (P * Q) := by
  have hfentry := hf.entry
  have hfexit := hf.exit
  have hgentry := hg.entry
  have hgexit := hg.exit
  have hsource : (concatJoint f g).source.toNat = f.exit := hf.toNat_exit
  have htarget : (concatJoint f g).target.toNat = g.entry := hg.toNat_entry
  refine ⟨hg.small, ⟨hfentry.1, Nat.lt_trans hfentry.2 (Nat.lt_of_le_of_lt hgentry.1 hgentry.2)⟩,
    ⟨Nat.le_trans hfentry.1 (Nat.le_trans (Nat.le_of_lt hfentry.2) hgexit.1), hgexit.2⟩, ?_, ?_⟩
  · intro t ht
    simp only [List.mem_append, List.mem_singleton] at ht
    rcases ht with (ht | ht) | rfl
    · have hin := hf.inside t ht
      omega
    · have hin := hg.inside t ht
      omega
    · omega
  · intro w
    rw [RegularExpression.matches'_mul, Language.mem_mul]
    constructor
    · intro h
      have hlt : (UInt32.ofNat f.entry).toNat < mid := hf.toNat_entry.trans_lt hfentry.2
      obtain ⟨u, v, rfl, hu, hv⟩ := (concatRest_of_reads hf hg h).1 hlt
      exact ⟨u, (hf.reads u).mp hu, v, (hg.reads v).mp hv, rfl⟩
    · rintro ⟨u, hu, v, hv, rfl⟩
      have hu : Reads (ts ++ us ++ [concatJoint f g]) (.ofNat f.entry) u (.ofNat f.exit) :=
        ((hf.reads u).mpr hu).mono (by simp_all)
      have hv : Reads (ts ++ us ++ [concatJoint f g]) (.ofNat g.entry) v (.ofNat g.exit) :=
        ((hg.reads v).mpr hv).mono (by simp_all)
      exact hu.trans (.epsilon (by simp [concatJoint]) hv)

/-- The transitions that join alternatives to the states around them. -/
def unionJoints (hi : Nat) (f g : Fragment) : List Transition :=
  [⟨.ofNat hi, .ofNat f.entry, .epsilon⟩, ⟨.ofNat hi, .ofNat g.entry, .epsilon⟩,
    ⟨.ofNat f.exit, .ofNat (hi + 1), .epsilon⟩, ⟨.ofNat g.exit, .ofNat (hi + 1), .epsilon⟩]

/-- What is left to read behind a state of alternatives. -/
def UnionRest (mid hi : Nat) (ts us : List Transition) (f g : Fragment) (p : StateId)
    (w : List Char) : Prop :=
  (p.toNat < mid → Reads ts p w (.ofNat f.exit)) ∧
  (mid ≤ p.toNat → p.toNat < hi → Reads us p w (.ofNat g.exit)) ∧
  (p.toNat = hi → Reads ts (.ofNat f.entry) w (.ofNat f.exit) ∨
    Reads us (.ofNat g.entry) w (.ofNat g.exit)) ∧
  (p.toNat = hi + 1 → w = [])

theorem unionRest_of_reads (hf : Part lo mid ts f P) (hg : Part mid hi us g Q)
    (hs : hi + 2 ≤ UInt32.size) {p : StateId} {w : List Char}
    (h : Reads (ts ++ us ++ unionJoints hi f g) p w (.ofNat (hi + 1))) :
    UnionRest mid hi ts us f g p w := by
  have hfentry := hf.entry
  have hfexit := hf.exit
  have hgentry := hg.entry
  have hgexit := hg.exit
  have hfirst : (UInt32.ofNat hi).toNat = hi := toNat_ofNat hs (by omega)
  have hlast : (UInt32.ofNat (hi + 1)).toNat = hi + 1 := toNat_ofNat hs (by omega)
  have hfe := hf.toNat_entry
  have hfx := hf.toNat_exit
  have hge := hg.toNat_entry
  have hgx := hg.toNat_exit
  refine h.backward ?_ ?_
  · exact ⟨fun hlt => by omega, fun _ hlt => by omega, fun he => by omega, fun _ => rfl⟩
  · intro t ht w hw
    simp only [unionJoints, List.mem_append, List.mem_cons, List.not_mem_nil, or_false] at ht
    rcases ht with (ht | ht) | rfl | rfl | rfl | rfl
    · have hin := hf.inside t ht
      exact ⟨fun _ => .cons ht (hw.1 hin.2.2), fun hle => by omega, fun he => by omega,
        fun he => by omega⟩
    · have hin := hg.inside t ht
      exact ⟨fun hlt => by omega, fun _ _ => .cons ht (hw.2.1 hin.2.1 hin.2.2),
        fun he => by omega, fun he => by omega⟩
    · refine ⟨fun hlt => ?_, fun _ hlt => ?_, fun _ => Or.inl (hw.1 ?_), fun he => ?_⟩
      all_goals dsimp only at *; omega
    · refine ⟨fun hlt => ?_, fun _ hlt => ?_, fun _ => Or.inr (hw.2.1 ?_ ?_), fun he => ?_⟩
      all_goals dsimp only at *; omega
    · obtain rfl := hw.2.2.2 hlast
      refine ⟨fun _ => .refl _ _, fun hle _ => ?_, fun he => ?_, fun he => ?_⟩
      all_goals dsimp only at *; omega
    · obtain rfl := hw.2.2.2 hlast
      refine ⟨fun hlt => ?_, fun _ _ => .refl _ _, fun he => ?_, fun he => ?_⟩
      all_goals dsimp only at *; omega

theorem union (hf : Part lo mid ts f P) (hg : Part mid hi us g Q) (hs : hi + 2 ≤ UInt32.size) :
    Part lo (hi + 2) (ts ++ us ++ unionJoints hi f g) ⟨hi, hi + 1⟩ (P + Q) := by
  have hfentry := hf.entry
  have hfexit := hf.exit
  have hgentry := hg.entry
  have hgexit := hg.exit
  have hfirst : (UInt32.ofNat hi).toNat = hi := toNat_ofNat hs (by omega)
  have hlast : (UInt32.ofNat (hi + 1)).toNat = hi + 1 := toNat_ofNat hs (by omega)
  have hlo : lo ≤ hi := by omega
  refine ⟨hs, ⟨hlo, by simp⟩, ⟨Nat.le_succ_of_le hlo, Nat.lt_succ_self _⟩, ?_, ?_⟩
  · have hfe := hf.toNat_entry
    have hfx := hf.toNat_exit
    have hge := hg.toNat_entry
    have hgx := hg.toNat_exit
    intro t ht
    simp only [unionJoints, List.mem_append, List.mem_cons, List.not_mem_nil, or_false] at ht
    rcases ht with (ht | ht) | rfl | rfl | rfl | rfl
    · have hin := hf.inside t ht
      omega
    · have hin := hg.inside t ht
      omega
    all_goals dsimp only; omega
  · intro w
    rw [RegularExpression.matches'_add, Language.mem_add]
    constructor
    · intro h
      exact ((unionRest_of_reads hf hg hs h).2.2.1 hfirst).imp (hf.reads w).mp (hg.reads w).mp
    · rintro (h | h)
      · have h : Reads (ts ++ us ++ unionJoints hi f g) (.ofNat f.entry) w (.ofNat f.exit) :=
          ((hf.reads w).mpr h).mono (by simp_all)
        exact (h.slip (by simp [unionJoints])).epsilon (by simp [unionJoints])
      · have h : Reads (ts ++ us ++ unionJoints hi f g) (.ofNat g.entry) w (.ofNat g.exit) :=
          ((hg.reads w).mpr h).mono (by simp_all)
        exact (h.slip (by simp [unionJoints])).epsilon (by simp [unionJoints])

/-- The transitions that join what is repeated to the states around it and to itself. -/
def starJoints (hi : Nat) (f : Fragment) : List Transition :=
  [⟨.ofNat hi, .ofNat (hi + 1), .epsilon⟩, ⟨.ofNat hi, .ofNat f.entry, .epsilon⟩,
    ⟨.ofNat f.exit, .ofNat (hi + 1), .epsilon⟩, ⟨.ofNat f.exit, .ofNat f.entry, .epsilon⟩]

/-- What is left to read behind a state of a repetition: the rest of one round and further rounds. -/
def StarRest (hi : Nat) (ts : List Transition) (f : Fragment) (L : Language Char) (p : StateId)
    (w : List Char) : Prop :=
  (p.toNat < hi → ∃ u v, w = u ++ v ∧ Reads ts p u (.ofNat f.exit) ∧ v ∈ KStar.kstar L) ∧
  (p.toNat = hi → w ∈ KStar.kstar L) ∧
  (p.toNat = hi + 1 → w = [])

theorem append_mem_kstar {L : Language Char} {u v : List Char} (hu : u ∈ L)
    (hv : v ∈ KStar.kstar L) : u ++ v ∈ KStar.kstar L := by
  obtain ⟨ws, rfl, hws⟩ := Language.mem_kstar.mp hv
  exact Language.mem_kstar.mpr ⟨u :: ws, rfl, List.forall_mem_cons.mpr ⟨hu, hws⟩⟩

theorem mem_kstar_of_starRest (hf : Part lo hi ts f P) {w : List Char}
    (hw : StarRest hi ts f P.matches' (.ofNat f.entry) w) : w ∈ KStar.kstar P.matches' := by
  have hlt : (UInt32.ofNat f.entry).toNat < hi := hf.toNat_entry.trans_lt hf.entry.2
  obtain ⟨u, v, rfl, hu, hv⟩ := hw.1 hlt
  exact append_mem_kstar ((hf.reads u).mp hu) hv

theorem starRest_of_reads (hf : Part lo hi ts f P) (hs : hi + 2 ≤ UInt32.size) {p : StateId}
    {w : List Char} (h : Reads (ts ++ starJoints hi f) p w (.ofNat (hi + 1))) :
    StarRest hi ts f P.matches' p w := by
  have hfentry := hf.entry
  have hfexit := hf.exit
  have hfirst : (UInt32.ofNat hi).toNat = hi := toNat_ofNat hs (by omega)
  have hlast : (UInt32.ofNat (hi + 1)).toNat = hi + 1 := toNat_ofNat hs (by omega)
  have hfe := hf.toNat_entry
  have hfx := hf.toNat_exit
  have hnil : ([] : List Char) ∈ KStar.kstar P.matches' := Language.nil_mem_kstar _
  refine h.backward ?_ ?_
  · exact ⟨fun hlt => by omega, fun he => by omega, fun _ => rfl⟩
  · intro t ht w hw
    simp only [starJoints, List.mem_append, List.mem_cons, List.not_mem_nil, or_false] at ht
    rcases ht with ht | rfl | rfl | rfl | rfl
    · have hin := hf.inside t ht
      refine ⟨fun _ => ?_, fun he => by omega, fun he => by omega⟩
      obtain ⟨u, v, rfl, hu, hv⟩ := hw.1 hin.2.2
      exact ⟨spelled [t.label] ++ u, v, (List.append_assoc ..).symm, .cons ht hu, hv⟩
    · obtain rfl := hw.2.2 hlast
      refine ⟨fun hlt => ?_, fun _ => hnil, fun he => ?_⟩
      all_goals dsimp only at *; omega
    · refine ⟨fun hlt => ?_, fun _ => mem_kstar_of_starRest hf hw, fun he => ?_⟩
      all_goals dsimp only at *; omega
    · obtain rfl := hw.2.2 hlast
      refine ⟨fun _ => ⟨[], [], rfl, .refl _ _, hnil⟩, fun he => ?_, fun he => ?_⟩
      all_goals dsimp only at *; omega
    · have hw := mem_kstar_of_starRest hf hw
      refine ⟨fun _ => ⟨[], w, rfl, .refl _ _, hw⟩, fun he => ?_, fun he => ?_⟩
      all_goals dsimp only at *; omega

theorem reads_star_rounds (hf : Part lo hi ts f P) {ws : List (List Char)}
    (hws : ∀ w ∈ ws, w ∈ P.matches') :
    Reads (ts ++ starJoints hi f) (.ofNat f.exit) ws.flatten (.ofNat (hi + 1)) := by
  induction ws with
  | nil => exact (Reads.refl _ _).epsilon (by simp [starJoints])
  | cons w ws ih =>
    obtain ⟨hw, hws⟩ := List.forall_mem_cons.mp hws
    have hround : Reads (ts ++ starJoints hi f) (.ofNat f.entry) w (.ofNat f.exit) :=
      ((hf.reads w).mpr hw).mono (by simp_all)
    exact (hround.trans (ih hws)).epsilon (by simp [starJoints])

theorem star (hf : Part lo hi ts f P) (hs : hi + 2 ≤ UInt32.size) :
    Part lo (hi + 2) (ts ++ starJoints hi f) ⟨hi, hi + 1⟩ P.star := by
  have hfentry := hf.entry
  have hfexit := hf.exit
  have hfirst : (UInt32.ofNat hi).toNat = hi := toNat_ofNat hs (by omega)
  have hlast : (UInt32.ofNat (hi + 1)).toNat = hi + 1 := toNat_ofNat hs (by omega)
  have hlo : lo ≤ hi := by omega
  refine ⟨hs, ⟨hlo, by simp⟩, ⟨Nat.le_succ_of_le hlo, Nat.lt_succ_self _⟩, ?_, ?_⟩
  · have hfe := hf.toNat_entry
    have hfx := hf.toNat_exit
    intro t ht
    simp only [starJoints, List.mem_append, List.mem_cons, List.not_mem_nil, or_false] at ht
    rcases ht with ht | rfl | rfl | rfl | rfl
    · have hin := hf.inside t ht
      omega
    all_goals dsimp only; omega
  · intro w
    rw [RegularExpression.matches'_star]
    constructor
    · intro h
      exact (starRest_of_reads hf hs h).2.1 hfirst
    · intro hw
      obtain ⟨ws, rfl, hws⟩ := Language.mem_kstar.mp hw
      cases ws with
      | nil => exact (Reads.refl _ _).epsilon (by simp [starJoints])
      | cons w ws =>
        obtain ⟨hw, hws⟩ := List.forall_mem_cons.mp hws
        have hround : Reads (ts ++ starJoints hi f) (.ofNat f.entry) w (.ofNat f.exit) :=
          ((hf.reads w).mpr hw).mono (by simp_all)
        exact (hround.trans (reads_star_rounds hf hws)).epsilon (by simp [starJoints])

end Part
end Regex
end FiniteAutomata
