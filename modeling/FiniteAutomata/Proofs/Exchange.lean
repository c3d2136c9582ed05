import FiniteAutomata.Exchange
import FiniteAutomata.Proofs.Decimal.Magnitude
import FiniteAutomata.Proofs.Json.Record

/-! # Automata are read back as they were written

Everything about an automaton is written, and read back, except that a symbol that spells epsilon becomes
epsilon. Of numbers only this is used, that the numerals of coordinates are read back.
-/
namespace FiniteAutomata

/-- Epsilon in the place of the symbols that spell it. -/
def Label.unreserved (l : Label) : Label := if l = .symbol 'e' ∨ l = .symbol 'ε' then .epsilon else l

def Transition.unreserved (t : Transition) : Transition := { t with label := t.label.unreserved }

/-- The numbers that say where the state is drawn. -/
def State.coordinates (s : State) : List Float := [s.x, s.y, s.radius]

/-- The states are the same but for where they are drawn. -/
structure State.Twins (s t : State) : Prop where
  id : s.id = t.id
  label : s.label = t.label
  isInitial : s.isInitial = t.isInitial
  isFinal : s.isFinal = t.isFinal

/-- Written and read back, the first state becomes the second. -/
structure State.Rereads (s t : State) : Prop extends s.Twins t where
  x : FiniteAutomata.Rereads s.x t.x
  y : FiniteAutomata.Rereads s.y t.y
  radius : FiniteAutomata.Rereads s.radius t.radius

namespace Automaton

/-- The automaton without symbols that spell epsilon. -/
def unreserved (a : Automaton) : Automaton :=
  { a with transitions := a.transitions.map Transition.unreserved }

/-- Written and read back, the first automaton becomes the second. -/
structure Rereads (a b : Automaton) : Prop where
  states : List.Forall₂ State.Rereads a.states b.states
  transitions : b.transitions = a.transitions.map Transition.unreserved

end Automaton

theorem StateId.ofJson?_toJson (id : StateId) : StateId.ofJson? id.toJson = some id := by
  have hle : id.toNat ≤ UInt32.size - 1 := Nat.le_sub_one_of_lt id.toNat_lt
  rw [StateId.ofJson?, StateId.toJson, Json.natUpTo?_nat hle, Option.map_some, UInt32.ofNat_toNat]

theorem Label.ofJson?_toJson (l : Label) : Label.ofJson? l.toJson = some l.unreserved := by
  rw [Label.ofJson?, Label.toJson, Json.char?_char, Option.map_some, ofMark_mark]
  rfl

theorem State.nodup_fieldNames : State.fieldNames.Nodup := by decide

theorem State.ofJson?_toJson {s t : State} (h : s.Rereads t) : State.ofJson? s.toJson = some t := by
  have hfields : s.toJson.fields? State.fieldNames = some [some s.id.toJson, some (.text s.label),
      some (.bool s.isInitial), some (.bool s.isFinal), some (.float s.x), some (.float s.y),
      some (.float s.radius)] := Json.fields?_record State.nodup_fieldNames
  rw [State.ofJson?, hfields]
  simp [Json.required, Json.optional, StateId.ofJson?_toJson, Json.text?, Json.text, Json.bool?,
    Json.float?_float h.x, Json.float?_float h.y, Json.float?_float h.radius]
  obtain ⟨⟨hid, hlabel, hinitial, hfinal⟩, -, -, -⟩ := h
  cases s
  cases t
  simp_all

theorem Transition.nodup_fieldNames : Transition.fieldNames.Nodup := by decide

theorem Transition.ofJson?_toJson (t : Transition) :
    Transition.ofJson? t.toJson = some t.unreserved := by
  have hfields : t.toJson.fields? Transition.fieldNames =
      some [some t.source.toJson, some t.target.toJson, some t.label.toJson] :=
    Json.fields?_record Transition.nodup_fieldNames
  rw [Transition.ofJson?, hfields]
  simp [Json.required, StateId.ofJson?_toJson, Label.ofJson?_toJson]
  rfl

theorem Automaton.nodup_fieldNames : Automaton.fieldNames.Nodup := by decide

theorem Automaton.ofJson?_toJson {a b : Automaton} (h : a.Rereads b) :
    Automaton.ofJson? a.toJson = some b := by
  have hfields : a.toJson.fields? Automaton.fieldNames =
      some [some (.list State.toJson a.states), some (.list Transition.toJson a.transitions)] :=
    Json.fields?_record Automaton.nodup_fieldNames
  have hstates : (Json.list State.toJson a.states).list? State.ofJson? = some b.states :=
    Json.list?_list (fun (s t : State) (h : s.Rereads t) => State.ofJson?_toJson h) h.states
  have htransitions :
      (Json.list Transition.toJson a.transitions).list? Transition.ofJson? = some b.transitions := by
    refine Json.list?_list (R := fun t u => u = t.unreserved)
      (fun t u htu => htu ▸ t.ofJson?_toJson) ?_
    rw [h.transitions, List.forall₂_map_right_iff, List.forall₂_same]
    exact fun _ _ => rfl
  rw [Automaton.ofJson?, hfields]
  simp [Json.optional, hstates, htransitions]

theorem StateId.reads_toJson (id : StateId) : id.toJson.Reads := .nat id.toNat

theorem State.reads_toJson {s : State} (h : ∀ x ∈ s.coordinates, x.isFinite = true) :
    s.toJson.Reads := by
  simp only [coordinates, List.forall_mem_cons] at h
  obtain ⟨hx, hy, hradius, -⟩ := h
  refine .record ?_
  simp only [List.forall_mem_cons]
  exact ⟨StateId.reads_toJson s.id, .text s.label, .bool s.isInitial, .bool s.isFinal, .float hx,
    .float hy, .float hradius, List.forall_mem_nil _⟩

theorem Transition.reads_toJson (t : Transition) : t.toJson.Reads := by
  refine .record ?_
  simp only [List.forall_mem_cons]
  exact ⟨StateId.reads_toJson t.source, StateId.reads_toJson t.target, .char t.label.mark,
    List.forall_mem_nil _⟩

namespace Automaton

theorem reads_toJson {a : Automaton} (h : ∀ s ∈ a.states, ∀ x ∈ s.coordinates, x.isFinite = true) :
    a.toJson.Reads := by
  refine .record ?_
  simp only [List.forall_mem_cons]
  exact ⟨.list fun s hs => State.reads_toJson (h s hs), .list fun t _ => t.reads_toJson,
    List.forall_mem_nil _⟩

/-- A written automaton is read like its record, with or without a line end behind it. -/
theorem read_write_append {a : Automaton}
    (h : ∀ s ∈ a.states, ∀ x ∈ s.coordinates, x.isFinite = true) (blanks : String)
    (hblanks : ∀ c ∈ blanks.toList, Json.isBlank c = true) :
    read (a.write ++ blanks) = match ofJson? a.toJson with
      | some b => .ok b
      | none => .refuse .malformed := by
  have hrecord : (Json.read (a.write ++ blanks).toList).bind ofJson? = ofJson? a.toJson := by
    rw [write, String.toList_append, (reads_toJson h).read_prettyText hblanks, Option.bind_some]
  unfold read
  cases hb : ofJson? a.toJson with
  | none => rw [hrecord, hb]
  | some b => rw [hrecord, hb]

theorem Rereads.isFinite {a b : Automaton} (h : a.Rereads b) :
    ∀ s ∈ a.states, ∀ x ∈ s.coordinates, x.isFinite = true := by
  refine ((List.forall₂_and_left _ _).mp (h.states.imp fun s t hst => ⟨?_, hst⟩)).1
  simp only [State.coordinates, List.forall_mem_cons]
  exact ⟨hst.x.1, hst.y.1, hst.radius.1, List.forall_mem_nil _⟩

/-- Writing and reading gives what the numerals of the coordinates are read back as. -/
theorem Rereads.read_write_eq {a b : Automaton} (h : a.Rereads b) : read a.write = .ok b := by
  have hread := read_write_append h.isFinite "" (List.forall_mem_nil _)
  rwa [String.append_empty, ofJson?_toJson h] at hread

end Automaton

namespace Json
variable {α : Type} {P : α → Prop} {read : Json → Option α}

theorem of_optional {default x : α} {field : Option Json} (hdefault : P default)
    (h : ∀ v x, read v = some x → P x) (hx : optional default read field = some x) : P x := by
  cases field with
  | none =>
    cases hx
    exact hdefault
  | some v => exact h v x hx

theorem forall_of_list? {v : Json} {xs : List α} (h : ∀ v x, read v = some x → P x)
    (hv : v.list? read = some xs) : ∀ x ∈ xs, P x := by
  cases v with
  | arr items =>
    change items.mapM read = some xs at hv
    induction items generalizing xs with
    | nil =>
      cases hv
      exact List.forall_mem_nil P
    | cons v items ih =>
      rw [List.mapM_cons] at hv
      obtain ⟨x, hx, hv⟩ := Option.bind_eq_some_iff.mp hv
      obtain ⟨ys, hys, hv⟩ := Option.bind_eq_some_iff.mp hv
      cases hv
      exact List.forall_mem_cons.mpr ⟨h v x hx, ih hys⟩
  | _ => cases hv

end Json

theorem Json.isFinite_of_float? {v : Json} {x : Float} (h : v.float? = some x) :
    x.isFinite = true := by
  cases v with
  | num n => exact Numeral.isFinite_of_float? h
  | _ => cases h

theorem State.isFinite_of_ofJson? {v : Json} {s : State} (h : State.ofJson? v = some s) :
    ∀ x ∈ s.coordinates, x.isFinite = true := by
  obtain ⟨fields, -, h⟩ := Option.bind_eq_some_iff.mp h
  have hcoordinate {default x : Float} {field : Option Json} (hdefault : default.isFinite = true)
      (hx : Json.optional default Json.float? field = some x) : x.isFinite = true :=
    Json.of_optional (P := fun x => x.isFinite = true) hdefault
      (fun _ _ => Json.isFinite_of_float?) hx
  split at h
  · simp only [Option.bind_eq_bind, Option.bind_eq_some_iff] at h
    obtain ⟨id, -, label, -, isInitial, -, isFinal, -, x, hx, y, hy, radius, hradius, h⟩ := h
    cases h
    simp only [State.coordinates, List.forall_mem_cons]
    exact ⟨hcoordinate rfl hx, hcoordinate rfl hy, hcoordinate rfl hradius, List.forall_mem_nil _⟩
  · cases h

theorem Label.unreserved_ofMark (c : Char) : (Label.ofMark c).unreserved = Label.ofMark c := by
  unfold Label.unreserved
  exact if_neg (not_or.mpr (Label.ofMark_ne_reserved c))

theorem Transition.unreserved_eq_self_iff {t : Transition} :
    t.unreserved = t ↔ t.label ≠ .symbol 'e' ∧ t.label ≠ .symbol 'ε' := by
  obtain ⟨source, target, label⟩ := t
  simp only [unreserved, mk.injEq, true_and, Label.unreserved]
  split
  · rename_i h
    rcases h with rfl | rfl <;> simp
  · rename_i h
    simpa [not_or] using h

theorem Transition.unreserved_of_ofJson? {v : Json} {t : Transition}
    (h : Transition.ofJson? v = some t) : t.unreserved = t := by
  obtain ⟨fields, -, h⟩ := Option.bind_eq_some_iff.mp h
  split at h
  · simp only [Option.bind_eq_bind, Option.bind_eq_some_iff, Json.required] at h
    obtain ⟨source, -, target, -, label, ⟨v, -, hlabel⟩, h⟩ := h
    cases h
    obtain ⟨c, -, rfl⟩ := Option.map_eq_some_iff.mp hlabel
    rw [Transition.unreserved, Label.unreserved_ofMark]
  · cases h

namespace Automaton
variable {a b : Automaton} {text : String}

theorem finite_and_unreserved_of_read (h : read text = .ok a) :
    (∀ s ∈ a.states, ∀ x ∈ s.coordinates, x.isFinite = true) ∧
      ∀ t ∈ a.transitions, t.unreserved = t := by
  unfold read at h
  split at h
  · rename_i b hb
    rw [Except.ok.injEq] at h
    subst h
    obtain ⟨v, -, hb⟩ := Option.bind_eq_some_iff.mp hb
    obtain ⟨fields, -, hb⟩ := Option.bind_eq_some_iff.mp hb
    split at hb
    · simp only [Option.bind_eq_bind, Option.bind_eq_some_iff] at hb
      obtain ⟨states, hstates, transitions, htransitions, hb⟩ := hb
      cases hb
      constructor
      · exact Json.of_optional (P := fun xs => ∀ s ∈ xs, ∀ x ∈ s.coordinates, x.isFinite = true)
          (List.forall_mem_nil _) (fun v xs => Json.forall_of_list? fun v s => State.isFinite_of_ofJson?)
          hstates
      · exact Json.of_optional (P := fun xs => ∀ t ∈ xs, t.unreserved = t)
          (List.forall_mem_nil _)
          (fun v xs => Json.forall_of_list? fun v t => Transition.unreserved_of_ofJson?) htransitions
    · cases hb
  · cases h

theorem unreserved_eq_self_iff : a.unreserved = a ↔ ∀ t ∈ a.transitions, t.unreserved = t := by
  obtain ⟨states, transitions⟩ := a
  simp only [unreserved, mk.injEq, true_and]
  have hid : transitions.map Transition.unreserved = transitions ↔
      transitions.map Transition.unreserved = transitions.map id := by rw [List.map_id]
  rw [hid, List.map_inj_left]
  rfl

/-- Writing an automaton and reading it back replaces the symbols that spell epsilon, and nothing else.
What was read has no such symbols, and is read back as it is. -/
theorem read_write (h : ∀ s ∈ a.states, ∀ x ∈ s.coordinates, x.isFinite = true →
      (Numeral.ofFloat x).float? = some x) :
    ((∀ s ∈ a.states, ∀ x ∈ s.coordinates, x.isFinite = true) →
        read a.write = .ok a.unreserved ∧
          (read a.write = .ok a ↔
            ∀ t ∈ a.transitions, t.label ≠ .symbol 'e' ∧ t.label ≠ .symbol 'ε')) ∧
      ∀ text, read text = .ok a → read a.write = .ok a := by
  have hwrite (hfinite : ∀ s ∈ a.states, ∀ x ∈ s.coordinates, x.isFinite = true) :
      read a.write = .ok a.unreserved := by
    refine Rereads.read_write_eq ⟨?_, rfl⟩
    rw [unreserved, List.forall₂_same]
    intro s hs
    have hx (x : Float) (hx : x ∈ s.coordinates) : FiniteAutomata.Rereads x x :=
      ⟨hfinite s hs x hx, h s hs x hx (hfinite s hs x hx)⟩
    exact ⟨⟨rfl, rfl, rfl, rfl⟩, hx _ (by simp [State.coordinates]), hx _ (by simp [State.coordinates]),
      hx _ (by simp [State.coordinates])⟩
  constructor
  · intro hfinite
    refine ⟨hwrite hfinite, ?_⟩
    rw [hwrite hfinite, Except.ok.injEq, unreserved_eq_self_iff]
    simp only [Transition.unreserved_eq_self_iff]
  · intro text htext
    obtain ⟨hfinite, hlabels⟩ := finite_and_unreserved_of_read htext
    rw [hwrite hfinite, unreserved_eq_self_iff.mpr hlabels]

/-- A label of all sorts of characters, a number with a fraction, and a symbol that spells epsilon. -/
def oddlyLabelled : Automaton where
  states := [{ id := 7, label := "Größe \"ε\"\n", isInitial := true, x := 12.5 }, { id := 2, isFinal := true }]
  transitions := [⟨7, 2, .symbol 'e'⟩, ⟨2, 7, .symbol 'ß'⟩, ⟨7, 7, .epsilon⟩]

theorem read_write_oddlyLabelled :
    read oddlyLabelled.write = .ok { oddlyLabelled with
      transitions := [⟨7, 2, .epsilon⟩, ⟨2, 7, .symbol 'ß'⟩, ⟨7, 7, .epsilon⟩] } := by
  have h : ∀ s ∈ oddlyLabelled.states, ∀ x ∈ s.coordinates, x.isFinite = true →
      (Numeral.ofFloat x).float? = some x := by
    decide +kernel
  exact ((read_write h).1 (by decide +kernel)).1

end Automaton
end FiniteAutomata
