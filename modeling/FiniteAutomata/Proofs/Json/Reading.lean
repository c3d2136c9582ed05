import FiniteAutomata.Json.Reader
import FiniteAutomata.Json.Writer
import FiniteAutomata.Proofs.Decimal.Numerals
import FiniteAutomata.Proofs.Json.Quoting

/-! # Written values are read back

Wherever the machine can begin a value, the text of the value takes it to the machine that has completed
the value. So arrays and objects are read back item by item, in whatever is open around them.
-/
namespace FiniteAutomata

namespace Numeral

theorem exists_text_cons {n : Numeral} (hn : n.WellFormed) :
    ∃ c later, n.text = c :: later ∧ (c = '-' ∨ ∃ d : Digit, c = d.toChar) := by
  obtain ⟨d, ds, hds, -⟩ := hn.whole
  rw [text_eq, hds]
  cases n.negative with
  | true => exact ⟨'-', _, rfl, .inl rfl⟩
  | false => exact ⟨d.toChar, _, rfl, .inr ⟨d, rfl⟩⟩

theorem not_of_isBlank {c : Char} (h : Json.isBlank c = true) :
    Digit.ofChar? c = none ∧ c ≠ '.' ∧ c ≠ 'e' ∧ c ≠ 'E' := by
  simp only [Json.isBlank, Bool.or_eq_true, decide_eq_true_eq] at h
  rcases h with ((rfl | rfl) | rfl) | rfl <;> decide

theorem ends_comma (text : List Char) : Ends (',' :: text) := by
  rintro c ⟨rfl⟩
  decide

theorem ends_newLine (depth : Nat) (text : List Char) : Ends (Json.newLine depth ++ text) := by
  rintro c ⟨rfl⟩
  decide

end Numeral

namespace Json

theorem Token.read_str (s : String) (rest : List Char) :
    read '"' (s.toList.flatMap Quoted.escape ++ '"' :: rest) = some (str (some s), rest) := by
  rw [read, Quoted.read_escapes]
  rfl

theorem Token.read_of_numeral {c : Char} (hc : c = '-' ∨ ∃ d : Digit, c = d.toChar)
    (rest : List Char) : isBlank c = false ∧
      read c rest = (Numeral.read (c :: rest)).map fun (n, rest) => (num n, rest) := by
  obtain rfl | ⟨d, rfl⟩ := hc
  · exact ⟨rfl, rfl⟩
  · have hdigit : ∀ d : Digit, isBlank d.toChar = false ∧ d.toChar ≠ '[' ∧ d.toChar ≠ ']' ∧
        d.toChar ≠ '\x7b' ∧ d.toChar ≠ '\x7d' ∧ d.toChar ≠ ',' ∧ d.toChar ≠ ':' ∧ d.toChar ≠ 'n' ∧
        d.toChar ≠ 't' ∧ d.toChar ≠ 'f' ∧ d.toChar ≠ '"' := by decide
    have h := hdigit d
    unfold read
    split <;> simp_all

namespace Machine
variable {m m' : Machine} {open_ : List Frame} {before : List (Quoted × Json)} {t : Token}
  {text rest : List Char}

theorem run_blank {c : Char} (h : isBlank c = true) : run m (c :: text) = run m text := by
  rw [run, if_pos h]

theorem run_token {c : Char} (hc : isBlank c = false) (ht : Token.read c text = some (t, rest))
    (hm : m.step t = some m') : run m (c :: text) = run m' rest := by
  rw [run, if_neg (by simp [hc])]
  split
  · simp_all
  · simp_all

theorem run_newLine (m : Machine) (depth : Nat) (text : List Char) :
    run m (newLine depth ++ text) = run m text := by
  have hblanks : ∀ count, run m (List.replicate count ' ' ++ text) = run m text := by
    intro count
    induction count with
    | zero => rfl
    | succ count ih =>
      rw [List.replicate_succ, List.cons_append, run_blank rfl, ih]
  rw [newLine, List.cons_append, run_blank rfl, hblanks]

theorem run_num {n : Numeral} (hn : n.WellFormed) (h : Numeral.Ends rest)
    (hm : m.step (.num n) = some m') : run m (n.text ++ rest) = run m' rest := by
  obtain ⟨c, later, htext, hc⟩ := Numeral.exists_text_cons hn
  obtain ⟨hblank, hread⟩ := Token.read_of_numeral hc (later ++ rest)
  have hback := hn.read_text h
  rw [htext, List.cons_append] at hback ⊢
  exact run_token hblank (by rw [hread, hback]; rfl) hm

theorem run_str (s : String) (rest : List Char) (hm : m.step (.str (some s)) = some m') :
    run m (Quoted.write (some s) ++ rest) = run m' rest := by
  have htext : Quoted.write (some s) ++ rest =
      '"' :: (s.toList.flatMap Quoted.escape ++ '"' :: rest) := by
    simp [Quoted.write]
  rw [htext]
  exact run_token rfl (Token.read_str s rest) hm

/-- Any value may begin here, within what is open. -/
def Awaits (m : Machine) (open_ : List Frame) : Prop :=
  ∀ t, t ≠ .closeArray → m.step t = beginValue open_ t

theorem awaits_value (open_ : List Frame) : (value open_).Awaits open_ := fun _ _ => rfl

theorem awaits_firstItem (open_ : List Frame) : (firstItem open_).Awaits (.items [] :: open_) := by
  intro t ht
  cases t <;> first | rfl | exact absurd rfl ht

/-- A member may begin here, behind those that were read before. -/
def AwaitsKey (m : Machine) (before : List (Quoted × Json)) (open_ : List Frame) : Prop :=
  ∀ k, m.step (.str k) = some (colon before k open_)

theorem awaitsKey_firstKey (open_ : List Frame) : (firstKey open_).AwaitsKey [] open_ := fun _ => rfl

theorem awaitsKey_key (before : List (Quoted × Json)) (open_ : List Frame) :
    (key before open_).AwaitsKey before open_ := fun _ => rfl

end Machine

/-- The text of the value is read as this value wherever one may begin. -/
def Reads (v : Json) : Prop :=
  ∀ (depth : Nat) (m : Machine) (open_ : List Frame) (rest : List Char), m.Awaits open_ →
    Numeral.Ends rest → m.run (v.pretty depth ++ rest) = (Machine.complete v open_).run rest

namespace Reads
open Machine

theorem bool (b : Bool) : (Json.bool b).Reads := by
  intro depth m open_ rest hm h
  have hstep := hm (.bool b) Token.noConfusion
  cases b with
  | true => exact run_token rfl rfl hstep
  | false => exact run_token rfl rfl hstep

theorem num {n : Numeral} (hn : n.WellFormed) : (Json.num n).Reads := by
  intro depth m open_ rest hm h
  exact run_num hn h (hm _ Token.noConfusion)

theorem text (s : String) : (Json.text s).Reads := by
  intro depth m open_ rest hm h
  exact run_str s rest (hm _ Token.noConfusion)

theorem items {vs : List Json} {v : Json} (hvs : ∀ w ∈ v :: vs, w.Reads) {depth : Nat} {m : Machine}
    {before : List Json} {open_ : List Frame} (hm : m.Awaits (.items before :: open_))
    (rest : List Char) : m.run (prettyItems depth (v :: vs) ++ rest) =
      (complete (.arr (before.reverse ++ v :: vs)) open_).run rest := by
  induction vs generalizing v m before with
  | nil =>
    have hv := hvs v (List.mem_singleton_self v)
    rw [prettyItems]
    simp only [List.append_assoc]
    rw [run_newLine, hv _ _ _ _ hm (Numeral.ends_newLine _ _), run_newLine]
    refine run_token rfl rfl ?_
    rw [step, List.reverse_cons]
  | cons w vs ih =>
    have hv := hvs v List.mem_cons_self
    have hm' := awaits_value (.items (v :: before) :: open_)
    have hrest := ih (fun x hx => hvs x (List.mem_cons_of_mem v hx)) hm'
    rw [prettyItems]
    simp only [List.append_assoc, List.cons_append]
    rw [run_newLine, hv _ _ _ _ hm (Numeral.ends_comma _), run_token rfl rfl rfl, hrest,
      List.reverse_cons, List.append_assoc]
    rfl

theorem list {α : Type} {toJson : α → Json} {xs : List α} (h : ∀ x ∈ xs, (toJson x).Reads) :
    (Json.list toJson xs).Reads := by
  intro depth m open_ rest hm hrest
  have hopen : m.step .openArray = some (firstItem open_) := hm _ Token.noConfusion
  cases xs with
  | nil =>
    calc m.run ('[' :: ']' :: rest)
        = (firstItem open_).run (']' :: rest) := run_token rfl rfl hopen
      _ = (complete (.arr []) open_).run rest := run_token rfl rfl rfl
  | cons x xs =>
    have hitems : ∀ v ∈ toJson x :: xs.map toJson, v.Reads := by
      rw [← List.map_cons]
      exact List.forall_mem_map.mpr h
    calc m.run ('[' :: (prettyItems depth (toJson x :: xs.map toJson) ++ rest))
        = (firstItem open_).run (prettyItems depth (toJson x :: xs.map toJson) ++ rest) :=
          run_token rfl rfl hopen
      _ = _ := items hitems (awaits_firstItem open_) rest

theorem member {v : Json} (hv : v.Reads) (key : String) (depth : Nat) {m : Machine}
    {before : List (Quoted × Json)} {open_ : List Frame} {rest : List Char}
    (hm : m.AwaitsKey before open_) (h : Numeral.Ends rest) :
    m.run (newLine depth ++ (Quoted.write (some key) ++ ':' :: ' ' :: (v.pretty depth ++ rest))) =
      (complete v (.member before (some key) :: open_)).run rest := by
  have hm' := awaits_value (.member before (some key) :: open_)
  rw [run_newLine, run_str key _ (hm _)]
  calc (colon before (some key) open_).run (':' :: ' ' :: (v.pretty depth ++ rest))
      = (value (.member before (some key) :: open_)).run (' ' :: (v.pretty depth ++ rest)) :=
        run_token rfl rfl rfl
    _ = (value (.member before (some key) :: open_)).run (v.pretty depth ++ rest) := run_blank rfl
    _ = _ := hv _ _ _ _ hm' h

theorem members {ms : List (String × Json)} {key : String} {v : Json}
    (hms : ∀ x ∈ (key, v) :: ms, x.2.Reads) {depth : Nat} {m : Machine}
    {before : List (Quoted × Json)} {open_ : List Frame} (hm : m.AwaitsKey before open_)
    (rest : List Char) :
    m.run (prettyMembers depth (((key, v) :: ms).map fun x => (some x.1, x.2)) ++ rest) =
      (complete (.obj (before.reverse ++ ((key, v) :: ms).map fun x => (some x.1, x.2))) open_).run
        rest := by
  induction ms generalizing key v m before with
  | nil =>
    have hv := hms _ (List.mem_singleton_self (key, v))
    rw [List.map_singleton, prettyMembers]
    simp only [List.append_assoc, List.cons_append, List.nil_append]
    rw [member hv key _ hm (Numeral.ends_newLine _ _), run_newLine]
    refine run_token rfl rfl ?_
    rw [step, List.reverse_cons]
  | cons w ms ih =>
    have hv := hms (key, v) List.mem_cons_self
    have hm' := awaitsKey_key ((some key, v) :: before) open_
    have hrest := ih (fun x hx => hms x (List.mem_cons_of_mem _ hx)) hm'
    rw [List.map_cons] at hrest
    rw [List.map_cons, List.map_cons, prettyMembers]
    simp only [List.append_assoc, List.cons_append, List.nil_append]
    rw [member hv key _ hm (Numeral.ends_comma _), run_token rfl rfl rfl, hrest, List.reverse_cons,
      List.append_assoc]
    rfl

theorem record {ms : List (String × Json)} (h : ∀ x ∈ ms, x.2.Reads) : (Json.record ms).Reads := by
  intro depth m open_ rest hm hrest
  have hopen : m.step .openObject = some (firstKey open_) := hm _ Token.noConfusion
  cases ms with
  | nil =>
    calc m.run ('\x7b' :: '\x7d' :: rest)
        = (firstKey open_).run ('\x7d' :: rest) := run_token rfl rfl hopen
      _ = (complete (.obj []) open_).run rest := run_token rfl rfl rfl
  | cons x ms =>
    exact (run_token rfl rfl hopen).trans (members h (awaitsKey_firstKey open_) rest)

/-- A text is read as the value whose text it is, with or without blanks behind it. -/
theorem read_prettyText {v : Json} (h : v.Reads) {blanks : List Char}
    (hblanks : ∀ c ∈ blanks, isBlank c = true) :
    Json.read (v.prettyText.toList ++ blanks) = some v := by
  have hends : Numeral.Ends blanks := fun c hc =>
    Numeral.not_of_isBlank (hblanks c (List.mem_of_mem_head? hc))
  have hrun := h 0 (value []) [] blanks (awaits_value []) hends
  have hdone : (complete v []).run blanks = some (complete v []) := by
    clear hrun hends
    induction blanks with
    | nil => rw [run]
    | cons c blanks ih =>
      obtain ⟨hc, hblanks⟩ := List.forall_mem_cons.mp hblanks
      rw [run_blank hc, ih hblanks]
  rw [prettyText, String.toList_ofList, Json.read, hrun, hdone]

end Reads
end Json
end FiniteAutomata
