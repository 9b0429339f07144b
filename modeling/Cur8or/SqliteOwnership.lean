import Cur8or.SharedOwnership
import Cur8or.SqliteRanges
import Cur8or.TransitionSystem
import Mathlib.Data.List.Count

/-! Instances, statements and tables under reference counting: a table guards its statement, a
statement guards its instance, and the destructors call SQLite. The calls are logged with the
pointers they set or pass; a non-null pointer is named after the object it is stored in. -/
namespace SqliteOwnership

open SharedOwnership SqliteRanges TransitionSystem

inductive Object where
  | ofInstance (db : Option ℕ)
  | ofStatement (stmt : Option ℕ)
  deriving DecidableEq

inductive SqliteCall where
  | openDatabase (db : Option ℕ)
  | extendedResultCodes (db : Option ℕ)
  | prepare (db stmt : Option ℕ)
  | reset (stmt : Option ℕ)
  | step (stmt : Option ℕ)
  | finalize (stmt : Option ℕ)
  | close (db : Option ℕ)
  deriving DecidableEq

def SqliteCall.isDestruction : SqliteCall → Bool
  | .finalize _ | .close _ => true
  | _ => false

/-- The shared pointers, and the tables with the one inside, that the program holds. -/
inductive Handle where
  | ofInstance (i : ℕ)
  | ofStatement (o : ℕ)
  | ofTable (o : ℕ)
  deriving DecidableEq

def Handle.target : Handle → ℕ
  | .ofInstance i => i
  | .ofStatement o => o
  | .ofTable o => o

structure State where
  heap : Heap Object
  handles : List Handle
  calls : List SqliteCall

def initial : State := ⟨.empty, [], []⟩

/-- The out-parameter of a call that sets it or leaves it null. -/
def pointer (set : Bool) (name : ℕ) : Option ℕ := if set then some name else none

theorem eq_of_pointer {set : Bool} {name p : ℕ} (h : pointer set name = some p) : p = name := by
  cases set with
  | true => exact (Option.some.inj h).symm
  | false => cases h

def dbOf (h : Heap Object) (i : ℕ) : Option ℕ :=
  match h.fixed i with
  | some (.ofInstance db, _) => db
  | _ => none

def stmtOf (h : Heap Object) (o : ℕ) : Option ℕ :=
  match h.fixed o with
  | some (.ofStatement stmt, _) => stmt
  | _ => none

/-- `~Instance` and `~Statement`. -/
def destructor (h : Heap Object) (i : ℕ) : SqliteCall :=
  match h.fixed i with
  | some (.ofInstance db, _) => .close db
  | some (.ofStatement stmt, _) => .finalize stmt
  | none => .finalize none

namespace State

def call (s : State) (c : SqliteCall) : State := { s with calls := s.calls ++ [c] }

def hold (s : State) (x : Handle) : State := { s with handles := s.handles ++ [x] }

def release (s : State) (i : ℕ) : State :=
  { s with
    heap := s.heap.release i
    calls := s.calls ++ (s.heap.expired i).map (destructor s.heap) }

/-- The object made by a factory is returned, or abandoned with the error. -/
def finish (s : State) (errorCode : ResultCode) (x : Handle) : State :=
  if errorCode = sqliteOk then s.hold x else s.release x.target

/-- `make_shared<Instance>()` and the call that opens it, which may set the pointer or not. -/
def openInstance (s : State) (opened : Bool) : State :=
  let db := pointer opened s.heap.cells.length
  { s with heap := s.heap.make (.ofInstance db) none }.call (.openDatabase db)

def newInstance (s : State) (opened : Bool) (openCode extendedCode : ResultCode) : State :=
  let i := s.heap.cells.length
  let s := s.openInstance opened
  if openCode = sqliteOk then
    (s.call (.extendedResultCodes (dbOf s.heap i))).finish extendedCode (.ofInstance i)
  else s.finish openCode (.ofInstance i)

def newMemoryInstance (s : State) (opened : Bool) (openCode : ResultCode) : State :=
  (s.openInstance opened).finish openCode (.ofInstance s.heap.cells.length)

def prepareStatement (s : State) (i : ℕ) (compiled : Bool) (errorCode : ResultCode) : State :=
  let o := s.heap.cells.length
  let stmt := pointer compiled o
  let heap := (s.heap.retain i).make (.ofStatement stmt) (some i)
  ({ s with heap := heap }.call (.prepare (dbOf s.heap i) stmt)).finish errorCode (.ofStatement o)

def evaluate (s : State) (o : ℕ) (result : ResultCode) : State :=
  let s := (s.call (.reset (stmtOf s.heap o))).call (.step (stmtOf s.heap o))
  if result = sqliteDone ∨ result = sqliteRow then
    { s with heap := s.heap.retain o }.hold (.ofTable o)
  else s

def nextRow (s : State) (o : ℕ) : State := s.call (.step (stmtOf s.heap o))

def copy (s : State) (x : Handle) : State :=
  { s with heap := s.heap.retain x.target }.hold x

def drop (s : State) (x : Handle) : State :=
  { s with handles := s.handles.erase x }.release x.target

end State

inductive Event where
  | newInstance (opened : Bool) (openCode extendedCode : ResultCode)
  | newMemoryInstance (opened : Bool) (openCode : ResultCode)
  | prepareStatement (i : ℕ) (compiled : Bool) (errorCode : ResultCode)
  | evaluate (o : ℕ) (result : ResultCode)
  | nextRow (o : ℕ)
  | copy (x : Handle)
  | drop (x : Handle)
  deriving DecidableEq

/-- Functions are called through a handle, and only handles are copied and dropped. -/
def Enabled (s : State) : Event → Prop
  | .newInstance _ _ _ => True
  | .newMemoryInstance _ _ => True
  | .prepareStatement i _ _ => .ofInstance i ∈ s.handles
  | .evaluate o _ => .ofStatement o ∈ s.handles
  | .nextRow o => .ofTable o ∈ s.handles
  | .copy x => x ∈ s.handles
  | .drop x => x ∈ s.handles

instance (s : State) (e : Event) : Decidable (Enabled s e) := by
  cases e <;> simp only [Enabled] <;> infer_instance

def next (s : State) : Event → State
  | .newInstance opened openCode extendedCode => s.newInstance opened openCode extendedCode
  | .newMemoryInstance opened openCode => s.newMemoryInstance opened openCode
  | .prepareStatement i compiled errorCode => s.prepareStatement i compiled errorCode
  | .evaluate o result => s.evaluate o result
  | .nextRow o => s.nextRow o
  | .copy x => s.copy x
  | .drop x => s.drop x

def database : System State Event := ⟨initial, Enabled, next⟩

instance (s : State) (e : Event) : Decidable (database.Enabled s e) :=
  inferInstanceAs (Decidable (Enabled s e))

def WellMade (h : Heap Object) (i : ℕ) : Object × Option ℕ → Prop
  | (.ofInstance db, g) => (∀ d, db = some d → d = i) ∧ g = none
  | (.ofStatement stmt, g) => (∀ p, stmt = some p → p = i) ∧
      ∃ j db, g = some j ∧ h.fixed j = some (.ofInstance db, none)

def WellKept (h : Heap Object) : Handle → Prop
  | .ofInstance i => ∃ db, h.fixed i = some (.ofInstance db, none)
  | .ofStatement o => ∃ stmt g, h.fixed o = some (.ofStatement stmt, g)
  | .ofTable o => ∃ stmt g, h.fixed o = some (.ofStatement stmt, g)

def Stored (h : Heap Object) : SqliteCall → Prop
  | .openDatabase (some d) => h.fixed d = some (.ofInstance (some d), none)
  | .prepare db (some p) => ∃ i, h.fixed p = some (.ofStatement (some p), some i) ∧
      h.fixed i = some (.ofInstance db, none)
  | _ => True

/-- `locals` are the references held by the local variables of a function in progress. -/
structure Invariant (locals : List ℕ) (s : State) : Prop where
  sound : s.heap.Sound (locals ++ s.handles.map Handle.target)
  made : ∀ i x, s.heap.fixed i = some x → WellMade s.heap i x
  kept : ∀ x ∈ s.handles, WellKept s.heap x
  stored : ∀ c ∈ s.calls, Stored s.heap c
  destructions : s.calls.filter SqliteCall.isDestruction =
    s.heap.destroyed.map (destructor s.heap)

def Extends (h h' : Heap Object) : Prop := ∀ i x, h.fixed i = some x → h'.fixed i = some x

theorem WellMade.extend {h h' : Heap Object} (he : Extends h h') {i : ℕ} {x : Object × Option ℕ}
    (hx : WellMade h i x) : WellMade h' i x := by
  obtain ⟨object, g⟩ := x
  cases object with
  | ofInstance db => exact hx
  | ofStatement stmt =>
    obtain ⟨hname, j, db, hg, hj⟩ := hx
    exact ⟨hname, j, db, hg, he _ _ hj⟩

theorem WellKept.extend {h h' : Heap Object} (he : Extends h h') {x : Handle}
    (hx : WellKept h x) : WellKept h' x := by
  cases x with
  | ofInstance i =>
    obtain ⟨db, hi⟩ := hx
    exact ⟨db, he _ _ hi⟩
  | ofStatement o =>
    obtain ⟨stmt, g, ho⟩ := hx
    exact ⟨stmt, g, he _ _ ho⟩
  | ofTable o =>
    obtain ⟨stmt, g, ho⟩ := hx
    exact ⟨stmt, g, he _ _ ho⟩

theorem Stored.extend {h h' : Heap Object} (he : Extends h h') {c : SqliteCall}
    (hc : Stored h c) : Stored h' c := by
  cases c with
  | openDatabase db =>
    cases db with
    | none => trivial
    | some d => exact he _ _ hc
  | prepare db stmt =>
    cases stmt with
    | none => trivial
    | some p =>
      obtain ⟨i, hp, hi⟩ := hc
      exact ⟨i, he _ _ hp, he _ _ hi⟩
  | extendedResultCodes db => trivial
  | reset stmt => trivial
  | step stmt => trivial
  | finalize stmt => trivial
  | close db => trivial

theorem destructor_extend {h h' : Heap Object} (he : Extends h h') {i : ℕ} {x}
    (hi : h.fixed i = some x) : destructor h' i = destructor h i := by
  rw [destructor, destructor, he i x hi, hi]

theorem destructor_cases (h : Heap Object) (i : ℕ) :
    (∃ db, destructor h i = .close db) ∨ ∃ stmt, destructor h i = .finalize stmt := by
  simp only [destructor]
  split
  · exact Or.inl ⟨_, rfl⟩
  · exact Or.inr ⟨_, rfl⟩
  · exact Or.inr ⟨_, rfl⟩

theorem destructor_isDestruction (h : Heap Object) (i : ℕ) :
    (destructor h i).isDestruction = true := by
  rcases destructor_cases h i with ⟨db, hd⟩ | ⟨stmt, hd⟩
  · rw [hd]
    rfl
  · rw [hd]
    rfl

theorem stored_destructor (h h' : Heap Object) (i : ℕ) : Stored h' (destructor h i) := by
  rcases destructor_cases h i with ⟨db, hd⟩ | ⟨stmt, hd⟩
  · rw [hd]
    trivial
  · rw [hd]
    trivial

namespace Invariant

variable {locals : List ℕ} {s : State}

theorem fixed_of_destroyed (hs : Invariant locals s) {i : ℕ} (hi : i ∈ s.heap.destroyed) :
    ∃ x, s.heap.fixed i = some x := by
  have hlt := ((hs.sound.ended i).mp hi).1
  exact ⟨_, by rw [Heap.fixed, List.getElem?_eq_getElem hlt]; rfl⟩

theorem reheap {locals' : List ℕ} {h : Heap Object} (hs : Invariant locals s)
    (hsound : h.Sound (locals' ++ s.handles.map Handle.target)) (he : Extends s.heap h)
    (hd : h.destroyed = s.heap.destroyed)
    (hmade : ∀ i x, h.fixed i = some x → s.heap.fixed i = some x ∨ WellMade h i x) :
    Invariant locals' { s with heap := h } := by
  refine ⟨hsound, ?_, ?_, ?_, ?_⟩
  · intro i x hi
    rcases hmade i x hi with hold | hnew
    · exact (hs.made i x hold).extend he
    · exact hnew
  · exact fun x hx => (hs.kept x hx).extend he
  · exact fun c hc => (hs.stored c hc).extend he
  · show _ = h.destroyed.map (destructor h)
    rw [hs.destructions, hd]
    apply List.map_congr_left
    intro i hi
    obtain ⟨x, hx⟩ := hs.fixed_of_destroyed hi
    exact (destructor_extend he hx).symm

theorem retain (hs : Invariant locals s) {i : ℕ} (hi : 0 < s.heap.uses i) :
    Invariant (i :: locals) { s with heap := s.heap.retain i } := by
  have hfixed := Heap.fixed_setUses s.heap i (s.heap.uses i + 1)
  apply hs.reheap (hs.sound.retain hi)
  · exact fun j x hj => (hfixed j).trans hj
  · rfl
  · exact fun j x hj => .inl ((hfixed j).symm.trans hj)

theorem make (content : Object) (guard : Option ℕ) (hs : Invariant (guard.toList ++ locals) s)
    (hmade : ∀ h, Extends s.heap h → WellMade h s.heap.cells.length (content, guard)) :
    Invariant (s.heap.cells.length :: locals) { s with heap := s.heap.make content guard } := by
  have hfixed := Heap.fixed_make s.heap content guard
  have he : Extends s.heap (s.heap.make content guard) := by
    intro j x hj
    rw [hfixed, if_neg (Nat.ne_of_lt (Heap.fixed_lt_length hj))]
    exact hj
  have hsound := hs.sound
  rw [List.append_assoc] at hsound
  apply hs.reheap (Heap.Sound.make content hsound) he rfl
  intro j x hj
  rw [hfixed] at hj
  split at hj
  · next hlen =>
    obtain rfl := Option.some.inj hj
    exact .inr (hlen ▸ hmade _ he)
  · exact .inl hj

theorem call (hs : Invariant locals s) {c : SqliteCall} (hc : Stored s.heap c)
    (hd : c.isDestruction = false) : Invariant locals (s.call c) := by
  refine ⟨hs.sound, hs.made, hs.kept, ?_, ?_⟩
  · intro d hmem
    rcases List.mem_append.mp hmem with h | h
    · exact hs.stored d h
    · exact List.mem_singleton.mp h ▸ hc
  · show (s.calls ++ [c]).filter _ = _
    rw [List.filter_append, List.filter_singleton, hd, hs.destructions]
    exact List.append_nil _

theorem hold {x : Handle} (hs : Invariant (x.target :: locals) s) (hx : WellKept s.heap x) :
    Invariant locals (s.hold x) := by
  refine ⟨?_, hs.made, ?_, hs.stored, hs.destructions⟩
  · apply hs.sound.perm
    show (x.target :: locals ++ s.handles.map Handle.target).Perm
      (locals ++ (s.handles ++ [x]).map Handle.target)
    rw [List.map_append, ← List.append_assoc]
    exact (List.perm_append_singleton _ _).symm
  · intro y hy
    rcases List.mem_append.mp hy with h | h
    · exact hs.kept y h
    · exact List.mem_singleton.mp h ▸ hx

theorem release {i : ℕ} (hs : Invariant (i :: locals) s) : Invariant locals (s.release i) := by
  have hfixed := Heap.fixed_release s.heap i
  have he : Extends s.heap (s.heap.release i) := fun j x hj => (hfixed j).trans hj
  refine ⟨Heap.Sound.release hs.sound, ?_, ?_, ?_, ?_⟩
  · intro j x hj
    exact (hs.made j x ((hfixed j).symm.trans hj)).extend he
  · exact fun x hx => (hs.kept x hx).extend he
  · intro c hc
    rcases List.mem_append.mp hc with h | h
    · exact (hs.stored c h).extend he
    · obtain ⟨j, _, rfl⟩ := List.mem_map.mp h
      exact stored_destructor _ _ _
  · have hall : ((s.heap.expired i).map (destructor s.heap)).filter SqliteCall.isDestruction =
        (s.heap.expired i).map (destructor s.heap) := by
      rw [List.filter_eq_self]
      intro c hc
      obtain ⟨j, _, rfl⟩ := List.mem_map.mp hc
      exact destructor_isDestruction _ _
    have hsame : destructor (s.heap.release i) = destructor s.heap := by
      funext j
      rw [destructor, destructor, hfixed]
    show (s.calls ++ _).filter _ = (s.heap.release i).destroyed.map (destructor (s.heap.release i))
    rw [List.filter_append, hs.destructions, hall, hsame, Heap.destroyed_release, List.map_append]

theorem finish {x : Handle} (hs : Invariant (x.target :: locals) s) (hx : WellKept s.heap x)
    (errorCode : ResultCode) : Invariant locals (s.finish errorCode x) := by
  simp only [State.finish]
  split
  · exact hs.hold hx
  · exact hs.release

theorem uses_pos (hs : Invariant locals s) {x : Handle} (hx : x ∈ s.handles) :
    0 < s.heap.uses x.target :=
  hs.sound.uses_pos (List.mem_append_right _ (List.mem_map_of_mem hx))

theorem openInstance (hs : Invariant locals s) (opened : Bool) :
    Invariant (s.heap.cells.length :: locals) (s.openInstance opened) ∧
      WellKept (s.openInstance opened).heap (.ofInstance s.heap.cells.length) := by
  have hmake := Invariant.make (.ofInstance (pointer opened s.heap.cells.length)) none hs
    (fun _ _ => ⟨fun _ => eq_of_pointer, rfl⟩)
  have hfixed : ∀ content, (s.heap.make content none).fixed s.heap.cells.length =
      some (content, none) := fun content => by rw [Heap.fixed_make, if_pos rfl]
  refine ⟨hmake.call ?_ rfl, _, hfixed _⟩
  cases opened with
  | true => exact hfixed _
  | false => trivial

theorem newInstance (hs : Invariant [] s) (opened : Bool) (openCode extendedCode : ResultCode) :
    Invariant [] (s.newInstance opened openCode extendedCode) := by
  obtain ⟨hopen, hkept⟩ := hs.openInstance opened
  simp only [State.newInstance]
  split
  · have hcall := hopen.call (c := .extendedResultCodes
      (dbOf (s.openInstance opened).heap s.heap.cells.length)) trivial rfl
    exact hcall.finish (x := .ofInstance _) hkept extendedCode
  · exact hopen.finish (x := .ofInstance _) hkept openCode

theorem newMemoryInstance (hs : Invariant [] s) (opened : Bool) (openCode : ResultCode) :
    Invariant [] (s.newMemoryInstance opened openCode) := by
  obtain ⟨hopen, hkept⟩ := hs.openInstance opened
  exact hopen.finish (x := .ofInstance _) hkept openCode

theorem prepareStatement (hs : Invariant [] s) {i : ℕ} (hi : .ofInstance i ∈ s.handles)
    (compiled : Bool) (errorCode : ResultCode) :
    Invariant [] (s.prepareStatement i compiled errorCode) := by
  obtain ⟨db, hdb⟩ := hs.kept _ hi
  have hretain : Invariant [i] { s with heap := s.heap.retain i } := hs.retain (hs.uses_pos hi)
  have hlen : (s.heap.retain i).cells.length = s.heap.cells.length := Heap.length_setUses _ _ _
  have hdb' : (s.heap.retain i).fixed i = some (.ofInstance db, none) :=
    (Heap.fixed_setUses _ _ _ _).trans hdb
  have hmake := Invariant.make (.ofStatement (pointer compiled s.heap.cells.length)) (some i)
    hretain (fun h he => ⟨fun p hp => (eq_of_pointer hp).trans hlen.symm, i, db, rfl,
      he _ _ hdb'⟩)
  have hfixed : ∀ content, ((s.heap.retain i).make content (some i)).fixed s.heap.cells.length =
      some (content, some i) := fun content => by rw [Heap.fixed_make, if_pos hlen.symm]
  dsimp only at hmake
  rw [hlen] at hmake
  refine (hmake.call ?_ rfl).finish (x := .ofStatement _) ⟨_, _, hfixed _⟩ errorCode
  have hdbOf : dbOf s.heap i = db := by rw [dbOf, hdb]
  cases compiled with
  | false => trivial
  | true =>
    refine ⟨i, hfixed _, ?_⟩
    rw [hdbOf, Heap.fixed_make, if_neg (Nat.ne_of_lt (Heap.fixed_lt_length hdb'))]
    exact hdb'

theorem evaluate (hs : Invariant [] s) {o : ℕ} (ho : .ofStatement o ∈ s.handles)
    (result : ResultCode) : Invariant [] (s.evaluate o result) := by
  have hreset : Invariant [] (s.call (.reset (stmtOf s.heap o))) := hs.call trivial rfl
  have hcalls : Invariant [] ((s.call (.reset (stmtOf s.heap o))).call (.step (stmtOf s.heap o))) :=
    hreset.call trivial rfl
  simp only [State.evaluate]
  split
  · have hretain := hcalls.retain (i := o) (hs.uses_pos ho)
    obtain ⟨stmt, g, hfixed⟩ := hs.kept _ ho
    exact hretain.hold (x := .ofTable o) ⟨stmt, g, (Heap.fixed_setUses _ _ _ _).trans hfixed⟩
  · exact hcalls

theorem copy (hs : Invariant [] s) {x : Handle} (hx : x ∈ s.handles) : Invariant [] (s.copy x) := by
  have hretain := hs.retain (hs.uses_pos hx)
  have hextends : Extends s.heap (s.heap.retain x.target) :=
    fun j y hj => (Heap.fixed_setUses _ _ _ j).trans hj
  exact hretain.hold ((hs.kept x hx).extend hextends)

theorem drop (hs : Invariant [] s) {x : Handle} (hx : x ∈ s.handles) : Invariant [] (s.drop x) := by
  have herased : Invariant [x.target] { s with handles := s.handles.erase x } := by
    refine ⟨?_, hs.made, fun y hy => hs.kept y (List.mem_of_mem_erase hy), hs.stored,
      hs.destructions⟩
    exact hs.sound.perm ((List.perm_cons_erase hx).map Handle.target)
  exact herased.release

end Invariant

theorem inductive_invariant : Inductive database (Invariant []) where
  initial := by
    refine ⟨Heap.Sound.initial, ?_, ?_, ?_, rfl⟩
    · intro i x hi
      cases hi
    · intro x hx
      cases hx
    · intro c hc
      cases hc
  step s e hs he := by
    cases e with
    | newInstance opened openCode extendedCode => exact hs.newInstance opened openCode extendedCode
    | newMemoryInstance opened openCode => exact hs.newMemoryInstance opened openCode
    | prepareStatement i compiled errorCode => exact hs.prepareStatement he compiled errorCode
    | evaluate o result => exact hs.evaluate he result
    | nextRow o => exact hs.call trivial rfl
    | copy x => exact hs.copy he
    | drop x => exact hs.drop he

theorem destructor_eq_close {h : Heap Object} {i d : ℕ} (hc : destructor h i = .close (some d)) :
    ∃ g, h.fixed i = some (.ofInstance (some d), g) := by
  simp only [destructor] at hc
  split at hc
  · next db g hi => exact ⟨g, SqliteCall.close.inj hc ▸ hi⟩
  · cases hc
  · cases hc

theorem destructor_eq_finalize {h : Heap Object} {i p : ℕ}
    (hc : destructor h i = .finalize (some p)) :
    ∃ g, h.fixed i = some (.ofStatement (some p), g) := by
  simp only [destructor] at hc
  split at hc
  · cases hc
  · next stmt g hi => exact ⟨g, SqliteCall.finalize.inj hc ▸ hi⟩
  · cases hc

namespace Invariant

variable {locals : List ℕ} {s : State}

theorem close_iff (hs : Invariant locals s) {d : ℕ}
    (hd : s.heap.fixed d = some (.ofInstance (some d), none)) (i : ℕ) :
    destructor s.heap i = .close (some d) ↔ i = d := by
  constructor
  · intro hi
    obtain ⟨g, hg⟩ := destructor_eq_close hi
    exact ((hs.made i _ hg).1 d rfl).symm
  · intro hi
    rw [hi, destructor, hd]

theorem finalize_iff (hs : Invariant locals s) {p i : ℕ}
    (hp : s.heap.fixed p = some (.ofStatement (some p), some i)) (j : ℕ) :
    destructor s.heap j = .finalize (some p) ↔ j = p := by
  constructor
  · intro hj
    obtain ⟨g, hg⟩ := destructor_eq_finalize hj
    exact ((hs.made j _ hg).1 p rfl).symm
  · intro hj
    rw [hj, destructor, hp]

theorem count_call (hs : Invariant locals s) {c : SqliteCall} (hc : c.isDestruction = true) {i : ℕ}
    (hi : ∀ j, destructor s.heap j = c ↔ j = i) : s.calls.count c = s.heap.destroyed.count i := by
  rw [← List.count_filter hc, hs.destructions, List.count_eq_countP, List.countP_map,
    List.count_eq_countP]
  apply List.countP_congr
  intro j _
  simp [hi]

/-- Before an instance closes its connection, the statements prepared on it are finalized. -/
theorem finalized_before (hs : Invariant locals s) {a b : List SqliteCall} {d p : ℕ}
    (hcalls : s.calls = a ++ .close (some d) :: b) (hp : .prepare (some d) (some p) ∈ a) :
    .finalize (some p) ∈ a := by
  have hmem : .prepare (some d) (some p) ∈ s.calls := hcalls ▸ List.mem_append_left _ hp
  obtain ⟨i, hfp, hfi⟩ := hs.stored _ hmem
  obtain rfl := (hs.made i _ hfi).1 d rfl
  have hd := hs.destructions
  rw [hcalls, List.filter_append, List.filter_cons_of_pos rfl] at hd
  obtain ⟨x, z, hz, hx, hy⟩ := List.map_eq_append_iff.mp hd.symm
  obtain ⟨k, y, rfl, hk, _⟩ := List.map_eq_cons_iff.mp hy
  obtain rfl := (hs.close_iff hfi k).mp hk
  have hpx := hs.sound.ordered x k y hz p ⟨_, hfp⟩
  have hcall : SqliteCall.finalize (some p) ∈ a.filter SqliteCall.isDestruction := by
    rw [← hx, ← (hs.finalize_iff hfp p).mpr rfl]
    exact List.mem_map_of_mem hpx
  exact (List.mem_filter.mp hcall).1

theorem finalize_notMem (hs : Invariant locals s) {o p : ℕ} (ho : .ofTable o ∈ s.handles)
    (hp : stmtOf s.heap o = some p) : .finalize (some p) ∉ s.calls := by
  intro hmem
  have hlive := hs.sound.notMem_destroyed (hs.uses_pos ho)
  obtain ⟨stmt, g, hf⟩ := hs.kept _ ho
  obtain rfl : stmt = some p := by
    rw [stmtOf, hf] at hp
    exact hp
  obtain rfl := (hs.made o _ hf).1 p rfl
  have hcall : SqliteCall.finalize (some p) ∈ s.heap.destroyed.map (destructor s.heap) := by
    rw [← hs.destructions]
    exact List.mem_filter.mpr ⟨hmem, rfl⟩
  obtain ⟨j, hj, hdestructor⟩ := List.mem_map.mp hcall
  obtain ⟨g', hg'⟩ := destructor_eq_finalize hdestructor
  obtain rfl := (hs.made j _ hg').1 p rfl
  exact hlive hj

theorem finalized_once (hs : Invariant [] s) (hnone : s.handles = []) {db : Option ℕ} {p : ℕ}
    (hp : .prepare db (some p) ∈ s.calls) : s.calls.count (.finalize (some p)) = 1 := by
  obtain ⟨i, hf, _⟩ := hs.stored _ hp
  have hsound : s.heap.Sound [] := by
    have := hs.sound
    rwa [hnone] at this
  rw [hs.count_call rfl (hs.finalize_iff hf)]
  exact List.count_eq_one_of_mem hsound.nodup (hsound.mem_destroyed_of_quiescent hf)

theorem closed_once (hs : Invariant [] s) (hnone : s.handles = []) {d : ℕ}
    (hd : .openDatabase (some d) ∈ s.calls) : s.calls.count (.close (some d)) = 1 := by
  have hf := hs.stored _ hd
  have hsound : s.heap.Sound [] := by
    have := hs.sound
    rwa [hnone] at this
  rw [hs.count_call rfl (hs.close_iff hf)]
  exact List.count_eq_one_of_mem hsound.nodup (hsound.mem_destroyed_of_quiescent hf)

end Invariant

/-- In the log a connection is closed only behind the ends of its statements. -/
def ClosedLast (calls : List SqliteCall) : Prop :=
  ∀ a b d p, calls = a ++ .close (some d) :: b → .prepare (some d) (some p) ∈ a →
    .finalize (some p) ∈ a

/-- Every resource the log shows as obtained is given back once. -/
def GivenBack (calls : List SqliteCall) : Prop :=
  (∀ db p, .prepare db (some p) ∈ calls → calls.count (.finalize (some p)) = 1) ∧
    ∀ d, .openDatabase (some d) ∈ calls → calls.count (.close (some d)) = 1

/-- Whatever the order of calls, copies and drops, SQLite sees no early and no missing end. -/
theorem resources_released {s : State} (h : Reachable database s) :
    ClosedLast s.calls ∧
    (∀ o p, .ofTable o ∈ s.handles → stmtOf s.heap o = some p → .finalize (some p) ∉ s.calls) ∧
    (s.handles = [] → GivenBack s.calls) := by
  have hs := inductive_invariant.reachable h
  refine ⟨?_, ?_, ?_⟩
  · intro a b d p hcalls hp
    exact hs.finalized_before hcalls hp
  · intro o p ho hp
    exact hs.finalize_notMem ho hp
  · intro hnone
    exact ⟨fun db p hp => hs.finalized_once hnone hp, fun d hd => hs.closed_once hnone hd⟩

def outlivingTable : List Event :=
  [.newInstance true sqliteOk sqliteOk, .prepareStatement 0 true sqliteOk,
    .evaluate 1 sqliteRow, .newInstance true 14 sqliteOk, .prepareStatement 0 true 1,
    .drop (.ofInstance 0), .copy (.ofTable 1), .drop (.ofStatement 1), .drop (.ofTable 1),
    .nextRow 1, .drop (.ofTable 1)]

theorem outlivingTable_released :
    let s := runTrace database initial outlivingTable
    ClosedLast s.calls ∧ GivenBack s.calls ∧
      s.calls.drop 9 = [.step (some 1), .finalize (some 1), .close (some 0)] := by
  have hvalid : ValidTrace database initial outlivingTable := by decide +kernel
  have hall := resources_released (valid_trace_reachable (S := database) hvalid)
  exact ⟨hall.1, hall.2.2 (by decide +kernel), by decide +kernel⟩

end SqliteOwnership
