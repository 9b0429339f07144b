import Cur8or.UtilitiesAdaptors

/-! The adaptors' loops with a reader that keeps a log: the start of every `substr` with the size
of the view it is asked of, and the position before and after every pass. -/
namespace AdaptorTrace

open CxxLibrary UtilitiesAdaptors

inductive Event where
  | substr (start size : ℕ)
  | advance (pos next : ℕ)
  deriving DecidableEq, Repr

abbrev Traced := StateT (List Event) (Except Fault)

def note (e : Event) : Traced Unit := modify (· ++ [e])

def logged : Reader Traced where
  substr s pos n := do
    note (.substr pos s.size)
    StateT.lift (s.substr pos n)
  advance pos next := note (.advance pos next)

def callPairs (a : KeyValueAdaptor) (str : StringView) : Traced MapType := a.callWith logged str

def callPath (a : ParamPathAdaptor) (path : StringView) : Traced ListType :=
  a.callWith logged path

def InBounds (log : List Event) : Prop := ∀ start size, .substr start size ∈ log → start ≤ size

def advances : List Event → List (ℕ × ℕ)
  | [] => []
  | .substr _ _ :: log => advances log
  | .advance pos next :: log => (pos, next) :: advances log

/-- The position only grows, inside the view, until the last pass sends it back to zero. -/
inductive Walk (size : ℕ) : ℕ → List (ℕ × ℕ) → Prop
  | last {pos} : pos ≤ size → Walk size pos [(pos, 0)]
  | step {pos next rest} : pos < next → Walk size next rest → Walk size pos ((pos, next) :: rest)

/-- A part of the log that belongs to one pass, before its advance. -/
structure Quiet (log : List Event) : Prop where
  bounds : InBounds log
  still : advances log = []

theorem advances_append (l k : List Event) : advances (l ++ k) = advances l ++ advances k := by
  induction l using advances.induct with
  | case1 => rfl
  | case2 start size l ih => exact ih
  | case3 pos next l ih => rw [List.cons_append, advances, advances, ih, List.cons_append]

theorem inBounds_append {l k : List Event} (hl : InBounds l) (hk : InBounds k) :
    InBounds (l ++ k) := by
  intro start size h
  rcases List.mem_append.mp h with h | h
  · exact hl start size h
  · exact hk start size h

theorem inBounds_advance (pos next : ℕ) : InBounds [.advance pos next] := by
  intro start size h
  simp at h

theorem quiet_nil : Quiet [] := ⟨by simp [InBounds], rfl⟩

theorem quiet_substr {start size : ℕ} (h : start ≤ size) : Quiet [.substr start size] := by
  refine ⟨?_, rfl⟩
  intro i j hm
  simp only [List.mem_singleton, Event.substr.injEq] at hm
  rw [hm.1, hm.2]
  exact h

theorem Quiet.append {l k : List Event} (hl : Quiet l) (hk : Quiet k) : Quiet (l ++ k) where
  bounds := inBounds_append hl.bounds hk.bounds
  still := by rw [advances_append, hl.still, hk.still, List.nil_append]

/-- It succeeds with `y` and adds `events` to whatever log there is. -/
def Performs {α : Type} (x : Traced α) (y : α) (events : List Event) : Prop :=
  ∀ log, x.run log = .ok (y, log ++ events)

theorem performs_pure {α : Type} (y : α) : Performs (pure y : Traced α) y [] := by
  intro log
  rw [List.append_nil]
  rfl

theorem performs_note (e : Event) : Performs (note e) () [e] := fun _ => rfl

theorem Performs.bind {α β : Type} {x : Traced α} {f : α → Traced β} {y : α} {z : β}
    {es fs : List Event} (hx : Performs x y es) (hf : Performs (f y) z fs) :
    Performs (x >>= f) z (es ++ fs) := by
  intro log
  rw [StateT.run_bind, hx, ok_bind, hf, List.append_assoc]

theorem performs_substr {s : StringView} {pos : ℕ} (h : pos ≤ s.size) (n : ℕ) :
    Performs (logged.substr s pos n) (s.slice pos n) [.substr pos s.size] := by
  intro log
  simp only [logged, StringView.substr_of_le h]
  rfl

theorem insertPair_performs (a : KeyValueAdaptor) (map : MapType) (delim : ℕ)
    (pair : StringView) :
    ∃ y log, a.insertPair .plain map delim pair = .ok y ∧
      Performs (a.insertPair logged map delim pair) y log ∧ Quiet log := by
  have hzero : 0 ≤ pair.size := Nat.zero_le _
  have hpast := StringView.past_le_size pair a.keyValueSeparator
  simp only [KeyValueAdaptor.insertPair, Reader.plain_substr hzero, Reader.plain_substr hpast,
    ok_bind]
  split
  · refine ⟨_, _, rfl, ((performs_substr hzero _).bind ((performs_substr hpast _).bind
      (performs_pure _))), ?_⟩
    exact (quiet_substr hzero).append ((quiet_substr hpast).append quiet_nil)
  · exact ⟨_, _, rfl, performs_pure _, quiet_nil⟩

theorem visit_performs {a : KeyValueAdaptor} {str : StringView} {pos : ℕ} (hpos : pos ≤ str.size)
    (delim : ℕ) (map : MapType) :
    ∃ y log, a.visit .plain str pos delim map = .ok y ∧
      Performs (a.visit logged str pos delim map) y log ∧ Quiet log := by
  unfold KeyValueAdaptor.visit
  rw [Reader.plain_substr hpos]
  split
  · obtain ⟨y, log, hy, hp, hq⟩ := insertPair_performs a map delim (str.slice pos delim)
    exact ⟨y, _, hy, (performs_substr hpos _).bind hp, (quiet_substr hpos).append hq⟩
  · exact ⟨_, _, rfl, performs_pure _, quiet_nil⟩

theorem emplaceBack_performs (a : ParamPathAdaptor) (list : ListType) (pair : StringView) :
    ∃ y log, a.emplaceBack .plain list pair = .ok y ∧
      Performs (a.emplaceBack logged list pair) y log ∧ Quiet log := by
  have hzero : 0 ≤ pair.size := Nat.zero_le _
  have hpast := StringView.past_le_size pair a.paramSign
  simp only [ParamPathAdaptor.emplaceBack, Reader.plain_substr hzero, Reader.plain_substr hpast,
    ok_bind]
  refine ⟨_, _, rfl, ((performs_substr hzero _).bind ((performs_substr hpast _).bind
    (performs_pure _))), ?_⟩
  exact (quiet_substr hzero).append ((quiet_substr hpast).append quiet_nil)

/-- What the log of `n` passes shows that set out from `pos`. -/
structure Passes (str : StringView) (c : Byte) (pos n : ℕ) (log : List Event) : Prop where
  bounds : InBounds log
  length : (advances log).length = n
  walk : n = (str.bytes.drop pos).count c + 1 → Walk str.size pos (advances log)

theorem passes_none (str : StringView) (c : Byte) (pos : ℕ) : Passes str c pos 0 [] where
  bounds := quiet_nil.bounds
  length := rfl
  walk := by
    intro h
    omega

/-- One pass more in front; a pass without a separator ahead is the last one. -/
theorem Passes.cons {str : StringView} {c : Byte} {pos n : ℕ} {first rest : List Event}
    (hpos : pos ≤ str.size) (hq : Quiet first)
    (hn : c ∉ str.bytes.drop pos → n = 0)
    (hr : Passes str c (sizeAdd pos (sizeAdd (sizeSub (str.find c pos) pos) 1)) n rest) :
    Passes str c pos (n + 1) (first ++
      (.advance pos (sizeAdd pos (sizeAdd (sizeSub (str.find c pos) pos) 1)) :: rest)) := by
  have hadv : ∀ next, advances (first ++ (.advance pos next :: rest)) =
      (pos, next) :: advances rest := by
    intro next
    rw [advances_append, hq.still, advances, List.nil_append]
  refine ⟨?_, ?_, ?_⟩
  · exact inBounds_append hq.bounds (inBounds_append (inBounds_advance _ _) hr.bounds)
  · rw [hadv, List.length_cons, hr.length]
  · intro hcount
    rw [hadv]
    by_cases h : c ∈ str.bytes.drop pos
    · obtain ⟨_, hlt, hdrop⟩ := StringView.next_of_mem h hpos
      apply Walk.step hlt
      apply hr.walk
      rw [hdrop]
      rw [count_of_mem h] at hcount
      exact Nat.succ.inj hcount
    · have hrest : advances rest = [] := by
        apply List.eq_nil_of_length_eq_zero
        rw [hr.length, hn h]
      rw [StringView.next_of_notMem h hpos, hrest]
      exact Walk.last hpos

theorem keyValueLoop_performs {a : KeyValueAdaptor} {str : StringView} {pos : ℕ} (n : ℕ)
    (map : MapType) (hpos : pos ≤ str.size)
    (hn : n ≤ (str.bytes.drop pos).count a.pairSeparator + 1) :
    ∃ y log, a.loop .plain str n pos map = .ok y ∧
      Performs (a.loop logged str n pos map) y log ∧
      Passes str a.pairSeparator pos n log := by
  induction n generalizing pos map with
  | zero => exact ⟨_, _, rfl, performs_pure _, passes_none _ _ _⟩
  | succ n ih =>
    obtain ⟨hle, hlast, hcount⟩ := StringView.next_pass hpos hn
    obtain ⟨seen, first, hv, hvp, hq⟩ := visit_performs hpos
      (sizeSub (str.find a.pairSeparator pos) pos) map (a := a)
    obtain ⟨y, rest, hy, hyp, hr⟩ := ih seen hle hcount
    refine ⟨y, _, ?_, hvp.bind ((performs_note _).bind hyp), hr.cons hpos hq hlast⟩
    rw [KeyValueAdaptor.loop_succ, hv, ok_bind, hy]

theorem paramPathLoop_performs {a : ParamPathAdaptor} {path : StringView} {pos : ℕ} (n : ℕ)
    (list : ListType) (hpos : pos ≤ path.size)
    (hn : n ≤ (path.bytes.drop pos).count a.pathSeparator + 1) :
    ∃ y log, a.loop .plain path n pos list = .ok y ∧
      Performs (a.loop logged path n pos list) y log ∧
      Passes path a.pathSeparator pos n log := by
  induction n generalizing pos list with
  | zero => exact ⟨_, _, rfl, performs_pure _, passes_none _ _ _⟩
  | succ n ih =>
    obtain ⟨hle, hlast, hcount⟩ := StringView.next_pass hpos hn
    obtain ⟨seen, first, hv, hvp, hq⟩ := emplaceBack_performs a list
      (path.slice pos (sizeSub (path.find a.pathSeparator pos) pos))
    obtain ⟨y, rest, hy, hyp, hr⟩ := ih seen hle hcount
    refine ⟨y, _, ?_, (performs_substr hpos _).bind (hvp.bind ((performs_note _).bind hyp)), ?_⟩
    · rw [ParamPathAdaptor.loop_succ, Reader.plain_substr hpos, ok_bind, hv, ok_bind, hy]
    · rw [← List.append_assoc]
      exact hr.cons hpos ((quiet_substr hpos).append hq) hlast

theorem callPairs_performs (a : KeyValueAdaptor) (str : StringView) :
    ∃ map log, a.call str = .ok map ∧ Performs (callPairs a str) map log ∧
      Passes str a.pairSeparator 0 (a.passes str) log := by
  apply keyValueLoop_performs (a.passes str) [] (Nat.zero_le _)
  rw [List.drop_zero]
  exact a.passes_le str

theorem callPath_performs (a : ParamPathAdaptor) (path : StringView) :
    ∃ list log, a.call path = .ok list ∧ Performs (callPath a path) list log ∧
      Passes path a.pathSeparator (sizeAdd (path.find a.pathSeparator 0) 1) (a.passes path)
        log := by
  have hle := a.passes_le path
  apply paramPathLoop_performs (a.passes path) [] (StringView.past_le_size path a.pathSeparator)
  by_cases h : a.pathSeparator ∈ path.bytes
  · rw [count_of_mem h] at hle
    rw [StringView.drop_past h]
    exact hle
  · rw [List.count_eq_zero_of_not_mem h] at hle
    omega

structure PairOffsets (a : KeyValueAdaptor) (str : StringView) (log : List Event) : Prop where
  bounds : InBounds log
  passes : (advances log).length = str.count a.pairSeparator + 1
  walk : Walk str.size 0 (advances log)

structure PathOffsets (a : ParamPathAdaptor) (path : StringView) (log : List Event) : Prop where
  bounds : InBounds log
  passes : (advances log).length = path.count a.pathSeparator
  walk : 0 < path.count a.pathSeparator →
    Walk path.size (sizeAdd (path.find a.pathSeparator 0) 1) (advances log)

theorem call_offsets (a : KeyValueAdaptor) (b : ParamPathAdaptor) (str : StringView) :
    (str.count a.pairSeparator ≤ intMax → ∃ map log, a.call str = .ok map ∧
      (callPairs a str).run [] = .ok (map, log) ∧ PairOffsets a str log) ∧
    (str.count b.pathSeparator ≤ intMax → ∃ list log, b.call str = .ok list ∧
      (callPath b str).run [] = .ok (list, log) ∧ PathOffsets b str log) := by
  constructor
  · intro hc
    obtain ⟨map, log, hy, hp, hs⟩ := callPairs_performs a str
    have hn : a.passes str = str.count a.pairSeparator + 1 := by
      rw [KeyValueAdaptor.passes_of_count_le hc, length_splitOn]
      rfl
    refine ⟨map, log, hy, hp [], hs.bounds, hs.length.trans hn, hs.walk ?_⟩
    rw [hn, List.drop_zero]
    rfl
  · intro hc
    obtain ⟨list, log, hy, hp, hs⟩ := callPath_performs b str
    have hn : b.passes str = str.count b.pathSeparator := by
      rw [ParamPathAdaptor.passes_of_count_le hc, ParamPathAdaptor.length_pieces]
      rfl
    refine ⟨list, log, hy, hp [], hs.bounds, hs.length.trans hn, fun hpos => hs.walk ?_⟩
    have hm : b.pathSeparator ∈ str.bytes := List.count_pos_iff.mp hpos
    rw [hn, StringView.count, StringView.drop_past hm]
    exact count_of_mem hm

theorem call_offsets_lone :
    (∃ map log, KeyValueAdaptor.standard.call (.ofText "/=&/a?=") = .ok map ∧
      (callPairs .standard (.ofText "/=&/a?=")).run [] = .ok (map, log) ∧
      PairOffsets .standard (.ofText "/=&/a?=") log) ∧
    (∃ list log, ParamPathAdaptor.standard.call (.ofText "/=&/a?=") = .ok list ∧
      (callPath .standard (.ofText "/=&/a?=")).run [] = .ok (list, log) ∧
      PathOffsets .standard (.ofText "/=&/a?=") log) :=
  let h := call_offsets .standard .standard (.ofText "/=&/a?=")
  ⟨h.1 (by decide +kernel), h.2 (by decide +kernel)⟩

end AdaptorTrace
