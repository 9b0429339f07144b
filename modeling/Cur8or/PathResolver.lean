import Cur8or.UtilitiesAdaptors
import Cur8or.PosixPath

/-! Queries and the virtual path resolver. A registered functor is a closure with its captured
state written out; running it records which return functions it invoked and how it ended. -/
namespace PathResolver

open CxxLibrary PosixPath UtilitiesAdaptors

inductive Return where
  | error (message : Bytes)
  | file (path : Path)
  | data (data : Bytes)
  deriving DecidableEq, Repr

structure Run where
  returns : List Return
  exit : Except Fault Unit
  deriving DecidableEq

/-- How a `noexcept` function ends, if it does: an exception does not leave it. -/
inductive Completion where
  | returned
  | terminated (f : Fault)
  | undefined (f : Fault)
  | endless
  deriving DecidableEq, Repr

def completion : Except Fault Unit → Completion
  | .ok _ => .returned
  | .error f =>
    if f = .endless then .endless else if f.isException then .terminated f else .undefined f

/-- A `std::function<void(Query&)>`; the body sees the target and the data of its query. -/
structure QueryProgram (σ : Type*) where
  captured : σ
  body : σ → StringView → StringView → σ × Run

structure Query (σ : Type*) where
  target : StringView
  data : StringView
  program : QueryProgram σ

variable {σ : Type*}

def QueryProgram.outcome (p : QueryProgram σ) (target data : StringView) : Run :=
  (p.body p.captured target data).2

namespace Query

def setData (q : Query σ) (data : StringView) : Query σ := { q with data := data }

/-- The program runs on the query's own copy of the closure. -/
def run (q : Query σ) : Query σ × Run :=
  let (captured, run) := q.program.body q.program.captured q.target q.data
  ({ q with program := { q.program with captured := captured } }, run)

theorem run_snd (q : Query σ) : q.run.2 = q.program.outcome q.target q.data := rfl

end Query

abbrev VirtualPathMap (σ : Type*) := UnorderedMap Bytes (QueryProgram σ)

def registerCallback (pathMap : VirtualPathMap σ) (vpath : Bytes) (callback : QueryProgram σ) :
    VirtualPathMap σ := pathMap.emplace vpath callback

def front (list : ListType) : Except Fault PathSegment :=
  match list with
  | [] => .error .emptyFront
  | first :: _ => .ok first

def firstName (target : StringView) : Except Fault Bytes := do
  let list ← ParamPathAdaptor.standard.call target
  let first ← front list
  return first.1

def newQuery (pathMap : VirtualPathMap σ) (target : StringView) : Except Fault (Query σ) :=
  match firstName target with
  | .error f => .error f
  | .ok name =>
    match pathMap.at? name with
    | .error f => .error f
    | .ok program => .ok ⟨target, .empty, program⟩

/-- The disjuncts are evaluated from left to right, `front()` only after the first three. -/
def supportedOperation (pathMap : VirtualPathMap σ) (vpath : StringView) : Except Fault Bool :=
  if vpath.size = 0 then .ok false
  else if vpath.bytes.head? ≠ some separator then .ok false
  else if vpath.findText dotDot ≠ npos then .ok false
  else (firstName vpath).map pathMap.contains

/-- The text after the leading slash up to the next `/` or `?` or the end. -/
def routeKey (target : Bytes) : Bytes :=
  cutBefore '?'.toUInt8 (cutBefore separator target.tail)

theorem cutBefore_cons_self (c : Byte) (l : Bytes) :
    cutBefore c (c :: l) = [] ∧ cutAfter c (c :: l) = l := cut_append (a := []) (by simp) l

theorem head_splitOn (c : Byte) (l : Bytes) : (l.splitOn c).head? = some (cutBefore c l) := by
  by_cases h : c ∈ l
  · rw [splitOn_of_mem h]
    rfl
  · rw [List.splitOn_eq_singleton h, cutBefore_of_notMem h]
    rfl

theorem pieces_of_slash {target : Bytes} (h : target.head? = some separator) :
    ∃ rest, target = separator :: rest ∧
      ParamPathAdaptor.standard.pieces target = rest.splitOn separator := by
  obtain ⟨rest, rfl⟩ : ∃ rest, target = separator :: rest := by
    cases target with
    | nil => simp at h
    | cons b l => exact ⟨l, by simpa using h⟩
  refine ⟨rest, rfl, ?_⟩
  have hmem : ParamPathAdaptor.standard.pathSeparator ∈ separator :: rest := List.mem_cons_self
  rw [ParamPathAdaptor.pieces_of_mem hmem]
  exact congrArg (List.splitOn separator) (cutBefore_cons_self separator rest).2

/-- The first name is the route key unless the separator count leaves the range of `int`. -/
theorem firstName_eq {target : StringView} (h : target.bytes.head? = some separator) :
    firstName target = if 0 < ParamPathAdaptor.standard.passes target
      then .ok (routeKey target.bytes) else .error .emptyFront := by
  obtain ⟨rest, hrest, hpieces⟩ := pieces_of_slash h
  have hhead := head_splitOn separator rest
  rw [firstName, ParamPathAdaptor.call_eq, ok_bind, hpieces]
  cases hn : ParamPathAdaptor.standard.passes target with
  | zero => rfl
  | succ n =>
    cases hs : rest.splitOn separator with
    | nil => exact absurd hs (List.splitOn_ne_nil _ _)
    | cons piece more =>
      rw [hs] at hhead
      obtain rfl := Option.some.inj hhead
      rw [if_pos (Nat.succ_pos n), routeKey, hrest]
      rfl

theorem passes_pos {target : StringView} (h : target.bytes.head? = some separator)
    (hc : target.count separator ≤ intMax) : 0 < ParamPathAdaptor.standard.passes target := by
  have hmem : separator ∈ target.bytes := List.mem_of_head? h
  have hpos : 0 < target.bytes.count separator := List.count_pos_iff.mpr hmem
  rw [ParamPathAdaptor.passes_of_count_le hc, ParamPathAdaptor.length_pieces]
  exact hpos

structure Accepted (pathMap : VirtualPathMap σ) (target : StringView) : Prop where
  slash : target.bytes.head? = some separator
  confined : ¬ dotDot <:+: target.bytes
  counted : 0 < ParamPathAdaptor.standard.passes target
  registered : pathMap.contains (routeKey target.bytes) = true

theorem supportedOperation_eq (pathMap : VirtualPathMap σ) (target : StringView) :
    supportedOperation pathMap target =
      if target.bytes.head? = some separator ∧ ¬ dotDot <:+: target.bytes then
        (firstName target).map pathMap.contains
      else .ok false := by
  have hdots := StringView.findText_eq_npos_iff (s := target) (p := dotDot)
  have hempty : target.size = 0 → target.bytes.head? ≠ some separator := by
    intro h
    rw [List.eq_nil_of_length_eq_zero h]
    simp
  unfold supportedOperation
  generalize npos = n at hdots ⊢
  by_cases hsize : target.size = 0
  · rw [if_pos hsize, if_neg (fun h => hempty hsize h.1)]
  · rw [if_neg hsize]
    by_cases hslash : target.bytes.head? = some separator
    · rw [if_neg (not_not_intro hslash)]
      by_cases hd : target.findText dotDot = n
      · rw [if_neg (not_not_intro hd), if_pos ⟨hslash, hdots.mp hd⟩]
      · rw [if_pos hd, if_neg (fun h => hd (hdots.mpr h.2))]
    · rw [if_pos hslash, if_neg (fun h => hslash h.1)]

theorem supportedOperation_iff {pathMap : VirtualPathMap σ} {target : StringView} :
    supportedOperation pathMap target = .ok true ↔ Accepted pathMap target := by
  rw [supportedOperation_eq]
  constructor
  · intro h
    split at h
    · next ht =>
      rw [firstName_eq ht.1] at h
      split at h
      · next hp => exact ⟨ht.1, ht.2, hp, Except.ok.inj h⟩
      · cases h
    · cases h
  · intro h
    rw [if_pos ⟨h.slash, h.confined⟩, firstName_eq h.slash, if_pos h.counted]
    exact congrArg Except.ok h.registered

theorem supportedOperation_total (pathMap : VirtualPathMap σ) {target : StringView}
    (hc : target.bytes.head? = some separator → ¬ dotDot <:+: target.bytes →
      0 < ParamPathAdaptor.standard.passes target) :
    ∃ b, supportedOperation pathMap target = .ok b := by
  rw [supportedOperation_eq]
  split
  · next ht =>
    rw [firstName_eq ht.1, if_pos (hc ht.1 ht.2)]
    exact ⟨_, rfl⟩
  · exact ⟨_, rfl⟩

theorem newQuery_eq_ok_iff {pathMap : VirtualPathMap σ} {target : StringView} {query : Query σ} :
    newQuery pathMap target = .ok query ↔ ∃ name program, firstName target = .ok name ∧
      pathMap.find? name = some program ∧ query = ⟨target, .empty, program⟩ := by
  unfold newQuery
  cases hn : firstName target with
  | error f => simp
  | ok name =>
    cases hp : pathMap.find? name with
    | none => simp [UnorderedMap.at?, hp]
    | some program => simp [UnorderedMap.at?, hp, eq_comm]

/-- The second look-up of an accepted target finds what the first one saw. -/
theorem newQuery_of_accepted {pathMap : VirtualPathMap σ} {target : StringView}
    (h : Accepted pathMap target) : ∃ program,
      pathMap.find? (routeKey target.bytes) = some program ∧
      newQuery pathMap target = .ok ⟨target, .empty, program⟩ := by
  obtain ⟨program, hfind⟩ := Option.isSome_iff_exists.mp h.registered
  have hname : firstName target = .ok (routeKey target.bytes) := by
    rw [firstName_eq h.slash, if_pos h.counted]
  exact ⟨program, hfind, newQuery_eq_ok_iff.mpr ⟨_, program, hname, hfind, rfl⟩⟩

end PathResolver
