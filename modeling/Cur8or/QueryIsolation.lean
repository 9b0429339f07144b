import Mathlib.Data.List.Perm.Basic
import Cur8or.ClientMain
import Cur8or.PathRegistrations
import Cur8or.TransitionSystem

/-! Where the closures live. A `std::function` owns its functor through a heap cell, copying it
copies the cell, and running it writes to the cell; so whether one request can disturb another is
a question about who holds which cell, at any interleaving of `newQuery` and `run`. The files and
the database may be others at every run. -/
namespace QueryIsolation

open CxxLibrary PosixPath UtilitiesAdaptors PathResolver ClientMain TransitionSystem

variable {ω σ : Type*}

/-- A functor over the world it meets when it runs. -/
structure Callback (ω σ : Type*) where
  captured : σ
  body : ω → σ → StringView → StringView → σ × Run

/-- The functor in a world that stands still. -/
def Callback.under (c : Callback ω σ) (w : ω) : QueryProgram σ := ⟨c.captured, c.body w⟩

abbrev Registration (ω σ : Type*) := Bytes × Callback ω σ

/-- The resolver of one request on its own. -/
def resolver (calls : List (Registration ω σ)) (w : ω) : VirtualPathMap σ :=
  PathRegistrations.registered (calls.map fun call => (call.1, call.2.under w))

/-- A `std::function` as it lies in memory. -/
structure Function (ω σ : Type*) where
  cell : ℕ
  body : ω → σ → StringView → StringView → σ × Run

structure Waiting (ω σ : Type*) where
  target : StringView
  data : StringView
  program : Function ω σ

structure Answer (ω : Type*) where
  world : ω
  target : StringView
  data : StringView
  run : Run

structure State (ω σ : Type*) where
  store : List σ
  pathMap : UnorderedMap Bytes (Function ω σ)
  waiting : List (Waiting ω σ)
  answered : List (Answer ω)

/-- The functor a function would run now. -/
def read (store : List σ) (f : Function ω σ) : Option (Callback ω σ) :=
  (store[f.cell]?).map fun captured => ⟨captured, f.body⟩

def copy (store : List σ) (f : Function ω σ) : List σ × Function ω σ :=
  match store[f.cell]? with
  | none => (store, f)
  | some captured => (store ++ [captured], ⟨store.length, f.body⟩)

/-- The argument is moved into the map, or dropped when the key is taken. -/
def register (s : State ω σ) (call : Registration ω σ) : State ω σ :=
  { s with
    store := s.store ++ [call.2.captured]
    pathMap := s.pathMap.emplace call.1 ⟨s.store.length, call.2.body⟩ }

/-- The reference `pathMap_.at` returns. -/
def lookup (s : State ω σ) (target : StringView) : Except Fault (Function ω σ) :=
  match firstName target with
  | .error f => .error f
  | .ok name => s.pathMap.at? name

/-- `setQueryProgram` takes its argument by value and assigns it: two copies. -/
def newQuery (s : State ω σ) (target : StringView) : State ω σ :=
  match lookup s target with
  | .error _ => s
  | .ok f =>
    let (store, callback) := copy s.store f
    let (store, program) := copy store callback
    { s with store := store, waiting := s.waiting ++ [⟨target, .empty, program⟩] }

def setData (s : State ω σ) (i : ℕ) (data : StringView) : State ω σ :=
  match s.waiting[i]? with
  | none => s
  | some q => { s with waiting := s.waiting.set i { q with data := data } }

/-- `query_(*this)` works on the cell its own function holds. -/
def run (s : State ω σ) (w : ω) (i : ℕ) : State ω σ :=
  match s.waiting[i]? with
  | none => s
  | some q =>
    match read s.store q.program with
    | none => s
    | some program =>
      let (captured, run) := program.body w program.captured q.target q.data
      { s with
        store := s.store.set q.program.cell captured
        waiting := s.waiting.eraseIdx i
        answered := s.answered ++ [⟨w, q.target, q.data, run⟩] }

inductive Event (ω : Type*) where
  | newQuery (target : StringView)
  | setData (i : ℕ) (data : StringView)
  | run (w : ω) (i : ℕ)

def Enabled (s : State ω σ) : Event ω → Prop
  | .newQuery target => (lookup s target).isOk = true
  | .setData i _ => i < s.waiting.length
  | .run _ i => i < s.waiting.length

instance (s : State ω σ) : (e : Event ω) → Decidable (Enabled s e)
  | .newQuery target => inferInstanceAs (Decidable ((lookup s target).isOk = true))
  | .setData i _ => inferInstanceAs (Decidable (i < s.waiting.length))
  | .run _ i => inferInstanceAs (Decidable (i < s.waiting.length))

def next (s : State ω σ) : Event ω → State ω σ
  | .newQuery target => newQuery s target
  | .setData i data => setData s i data
  | .run w i => run s w i

def initial (calls : List (Registration ω σ)) : State ω σ :=
  calls.foldl register ⟨[], .empty, [], []⟩

def requests (calls : List (Registration ω σ)) : System (State ω σ) (Event ω) where
  initial := initial calls
  Enabled := Enabled
  next := next

instance (calls : List (Registration ω σ)) (s : State ω σ) (e : Event ω) :
    Decidable ((requests calls).Enabled s e) := inferInstanceAs (Decidable (Enabled s e))

theorem read_eq_some {store : List σ} {f : Function ω σ} {p : Callback ω σ} :
    read store f = some p ↔ store[f.cell]? = some p.captured ∧ f.body = p.body := by
  obtain ⟨captured, body⟩ := p
  simp [read]

theorem cell_lt_of_read {store : List σ} {f : Function ω σ} {p : Callback ω σ}
    (h : read store f = some p) : f.cell < store.length := by
  obtain ⟨hc, _⟩ := read_eq_some.mp h
  exact (List.getElem?_eq_some_iff.mp hc).1

theorem read_append {store : List σ} {f : Function ω σ} {p : Callback ω σ}
    (h : read store f = some p) (l : List σ) : read (store ++ l) f = some p := by
  rw [read, List.getElem?_append_left (cell_lt_of_read h)]
  exact h

theorem read_set {store : List σ} {f : Function ω σ} {c : ℕ} (h : c ≠ f.cell) (captured : σ) :
    read (store.set c captured) f = read store f := by
  rw [read, List.getElem?_set_ne h]
  rfl

theorem copy_eq {store : List σ} {f : Function ω σ} {p : Callback ω σ}
    (h : read store f = some p) :
    copy store f = (store ++ [p.captured], ⟨store.length, p.body⟩) := by
  obtain ⟨hc, hb⟩ := read_eq_some.mp h
  rw [copy, hc, hb]

theorem read_copy (store : List σ) (p : Callback ω σ) :
    read (store ++ [p.captured]) ⟨store.length, p.body⟩ = some p := by
  rw [read_eq_some]
  exact ⟨List.getElem?_concat_length, rfl⟩

theorem newQuery_eq {s : State ω σ} {target : StringView} {f : Function ω σ} {p : Callback ω σ}
    (hl : lookup s target = .ok f) (hr : read s.store f = some p) :
    newQuery s target = { s with
      store := s.store ++ [p.captured] ++ [p.captured]
      waiting := s.waiting ++
        [⟨target, .empty, ⟨(s.store ++ [p.captured]).length, p.body⟩⟩] } := by
  have hc := copy_eq (read_copy s.store p)
  simp only [newQuery, hl, copy_eq hr, hc]

theorem run_eq {s : State ω σ} {i : ℕ} {q : Waiting ω σ} {p : Callback ω σ}
    (hq : s.waiting[i]? = some q) (hr : read s.store q.program = some p) (w : ω) :
    run s w i = { s with
      store := s.store.set q.program.cell (p.body w p.captured q.target q.data).1
      waiting := s.waiting.eraseIdx i
      answered := s.answered ++
        [⟨w, q.target, q.data, (p.under w).outcome q.target q.data⟩] } := by
  simp only [run, hq, hr, QueryProgram.outcome, Callback.under]

theorem isOk_iff {α : Type*} {x : Except Fault α} : x.isOk = true ↔ ∃ a, x = .ok a := by
  cases x <;> simp [Except.isOk, Except.toBool]

theorem lookup_eq_ok_iff {s : State ω σ} {target : StringView} {f : Function ω σ} :
    lookup s target = .ok f ↔
      ∃ name, firstName target = .ok name ∧ s.pathMap.find? name = some f := by
  unfold lookup
  cases hn : firstName target with
  | error e => simp
  | ok name => simp [UnorderedMap.at?_eq_ok_iff]

def cells (s : State ω σ) : List ℕ :=
  s.pathMap.entries.map (fun e => e.2.cell) ++ s.waiting.map (fun q => q.program.cell)

/-- Which functor a key has, in any world. -/
def callbacks (calls : List (Registration ω σ)) : UnorderedMap Bytes (Callback ω σ) :=
  calls.foldl (fun pathMap call => pathMap.emplace call.1 call.2) .empty

theorem callbacks_append (calls : List (Registration ω σ)) (call : Registration ω σ) :
    callbacks (calls ++ [call]) = (callbacks calls).emplace call.1 call.2 := by
  rw [callbacks, List.foldl_append]
  rfl

theorem resolver_append (calls : List (Registration ω σ)) (call : Registration ω σ) (w : ω) :
    resolver (calls ++ [call]) w =
      registerCallback (resolver calls w) call.1 (call.2.under w) := by
  rw [resolver, List.map_append]
  exact PathRegistrations.registered_append _ _

theorem resolver_find (calls : List (Registration ω σ)) (w : ω) (key : Bytes) :
    (resolver calls w).find? key =
      ((callbacks calls).find? key).map fun p => p.under w := by
  induction calls using List.reverseRecOn with
  | nil => rfl
  | append_singleton calls call ih =>
    rw [resolver_append, registerCallback, callbacks_append, UnorderedMap.find?_emplace,
      UnorderedMap.find?_emplace, ih]
    by_cases hk : key = call.1
    · rw [if_pos hk, if_pos hk, ← hk, ih]
      cases (callbacks calls).find? key <;> rfl
    · rw [if_neg hk, if_neg hk]

structure Invariant (calls : List (Registration ω σ)) (s : State ω σ) : Prop where
  allocated : ∀ c ∈ cells s, c < s.store.length
  owned : (cells s).Nodup
  stored : ∀ key, (s.pathMap.find? key).map (read s.store) =
    ((callbacks calls).find? key).map some
  pending : ∀ q ∈ s.waiting, ∃ p, read s.store q.program = some p ∧
    ∀ w, PathResolver.newQuery (resolver calls w) q.target = .ok ⟨q.target, .empty, p.under w⟩
  answered : ∀ a ∈ s.answered, ∃ query,
    PathResolver.newQuery (resolver calls a.world) a.target = .ok query ∧
    a.run = (query.setData a.data).run.2

theorem Invariant.read_stored {calls : List (Registration ω σ)} {s : State ω σ}
    (h : Invariant calls s) {key : Bytes} {f : Function ω σ} (hf : s.pathMap.find? key = some f) :
    ∃ p, (callbacks calls).find? key = some p ∧ read s.store f = some p := by
  have hs := h.stored key
  rw [hf, Option.map_some] at hs
  obtain ⟨p, hp, hr⟩ := Option.map_eq_some_iff.mp hs.symm
  exact ⟨p, hp, hr.symm⟩

theorem Invariant.lookup_read {calls : List (Registration ω σ)} {s : State ω σ}
    (h : Invariant calls s) {target : StringView} (he : Enabled s (.newQuery target)) :
    ∃ f p, lookup s target = .ok f ∧ read s.store f = some p ∧
      ∀ w, PathResolver.newQuery (resolver calls w) target = .ok ⟨target, .empty, p.under w⟩ := by
  obtain ⟨f, hl⟩ := isOk_iff.mp he
  obtain ⟨name, hn, hf⟩ := lookup_eq_ok_iff.mp hl
  obtain ⟨p, hp, hr⟩ := h.read_stored hf
  refine ⟨f, p, hl, hr, fun w => newQuery_eq_ok_iff.mpr ⟨name, p.under w, hn, ?_, rfl⟩⟩
  rw [resolver_find, hp]
  rfl

theorem stored_append {calls : List (Registration ω σ)} {s : State ω σ} (h : Invariant calls s)
    (l : List σ) (key : Bytes) :
    (s.pathMap.find? key).map (read (s.store ++ l)) = ((callbacks calls).find? key).map some := by
  rw [← h.stored key]
  cases hf : s.pathMap.find? key with
  | none => rfl
  | some f =>
    obtain ⟨p, _, hr⟩ := h.read_stored hf
    rw [Option.map_some, Option.map_some, read_append hr, hr]

theorem fresh_cell {l : List ℕ} {n c : ℕ} (hl : l.Nodup) (hall : ∀ d ∈ l, d < n) (hc : n ≤ c) :
    (l ++ [c]).Nodup ∧ ∀ d ∈ l ++ [c], d < c + 1 := by
  constructor
  · rw [List.nodup_append]
    refine ⟨hl, by simp, ?_⟩
    intro d hd e he
    obtain rfl := List.mem_singleton.mp he
    have := hall d hd
    omega
  · intro d hd
    rcases List.mem_append.mp hd with hd | hd
    · have := hall d hd
      omega
    · obtain rfl := List.mem_singleton.mp hd
      exact Nat.lt_succ_self _

theorem cells_register {s : State ω σ} (hw : s.waiting = []) (call : Registration ω σ) :
    cells (register s call) = cells s ∨
      cells (register s call) = cells s ++ [s.store.length] := by
  unfold cells register UnorderedMap.emplace
  rw [hw]
  split
  · exact Or.inl rfl
  · right
    simp

theorem stored_register {calls : List (Registration ω σ)} {s : State ω σ} (h : Invariant calls s)
    (call : Registration ω σ) (key : Bytes) :
    ((register s call).pathMap.find? key).map (read (register s call).store) =
      ((callbacks (calls ++ [call])).find? key).map some := by
  have hold := stored_append h [call.2.captured]
  rw [callbacks_append, UnorderedMap.find?_emplace, register,
    UnorderedMap.find?_emplace]
  by_cases hk : key = call.1
  · rw [if_pos hk, if_pos hk, Option.map_some, Option.map_some]
    have hcall := hold call.1
    cases hf : s.pathMap.find? call.1 with
    | none =>
      rw [hf, Option.map_none] at hcall
      rw [Option.map_eq_none_iff.mp hcall.symm]
      exact congrArg some (read_copy _ call.2)
    | some f =>
      rw [hf, Option.map_some] at hcall
      obtain ⟨p, hp, hr⟩ := Option.map_eq_some_iff.mp hcall.symm
      rw [hp]
      exact congrArg some hr.symm
  · rw [if_neg hk, if_neg hk]
    exact hold key

theorem register_invariant {calls : List (Registration ω σ)} {s : State ω σ} (h : Invariant calls s)
    (hw : s.waiting = []) (ha : s.answered = []) (call : Registration ω σ) :
    Invariant (calls ++ [call]) (register s call) := by
  obtain ⟨howned, hallocated⟩ := fresh_cell h.owned h.allocated (le_refl _)
  have hlen : (register s call).store.length = s.store.length + 1 := List.length_append
  refine ⟨?_, ?_, stored_register h call, ?_, ?_⟩
  · intro c hc
    rw [hlen]
    rcases cells_register hw call with he | he
    · exact Nat.lt_succ_of_lt (h.allocated c (he ▸ hc))
    · exact hallocated c (he ▸ hc)
  · rcases cells_register hw call with he | he
    · exact he ▸ h.owned
    · exact he ▸ howned
  · intro q hq
    change q ∈ s.waiting at hq
    rw [hw] at hq
    cases hq
  · intro a hm
    change a ∈ s.answered at hm
    rw [ha] at hm
    cases hm

theorem initial_quiet (calls : List (Registration ω σ)) :
    (initial calls).waiting = [] ∧ (initial calls).answered = [] := by
  induction calls using List.reverseRecOn with
  | nil => exact ⟨rfl, rfl⟩
  | append_singleton calls call ih =>
    rw [initial, List.foldl_append]
    exact ih

theorem initial_invariant (calls : List (Registration ω σ)) : Invariant calls (initial calls) := by
  induction calls using List.reverseRecOn with
  | nil =>
    constructor
    · intro c hc
      cases hc
    · exact List.nodup_nil
    · intro key
      rfl
    · intro q hq
      cases hq
    · intro a ha
      cases ha
  | append_singleton calls call ih =>
    obtain ⟨hw, ha⟩ := initial_quiet calls
    rw [initial, List.foldl_append]
    exact register_invariant ih hw ha call

theorem setData_eq {s : State ω σ} {i : ℕ} {q : Waiting ω σ} (hq : s.waiting[i]? = some q)
    (data : StringView) :
    setData s i data = { s with waiting := s.waiting.set i { q with data := data } } := by
  simp only [setData, hq]

theorem map_set_of_eq {α β : Type*} {l : List α} {f : α → β} {i : ℕ} {a b : α}
    (ha : l[i]? = some a) (hf : f b = f a) : (l.set i b).map f = l.map f := by
  obtain ⟨hi, rfl⟩ := List.getElem?_eq_some_iff.mp ha
  have hlen : i < (l.map f).length := by rwa [List.length_map]
  have hself := List.set_getElem_self hlen
  rw [List.getElem_map] at hself
  rw [List.map_set, hf]
  exact hself

theorem cell_notMem_eraseIdx {l : List (Waiting ω σ)} {i : ℕ} {q : Waiting ω σ}
    (hq : l[i]? = some q) (hl : (l.map (fun q => q.program.cell)).Nodup) {r : Waiting ω σ}
    (hr : r ∈ l.eraseIdx i) : q.program.cell ≠ r.program.cell := by
  obtain ⟨hi, rfl⟩ := List.getElem?_eq_some_iff.mp hq
  have hp := (List.getElem_cons_eraseIdx_perm hi).map (fun q : Waiting ω σ => q.program.cell)
  rw [List.map_cons] at hp
  have hn := (List.nodup_cons.mp (hp.nodup_iff.mpr hl)).1
  intro he
  exact hn (he ▸ List.mem_map_of_mem hr)

theorem newQuery_invariant {calls : List (Registration ω σ)} {s : State ω σ} (h : Invariant calls s)
    {target : StringView} (he : Enabled s (.newQuery target)) :
    Invariant calls (newQuery s target) := by
  obtain ⟨f, p, hl, hr, hq⟩ := h.lookup_read he
  have hcells : cells (newQuery s target) = cells s ++ [s.store.length + 1] := by
    rw [newQuery_eq hl hr, cells, cells]
    simp
  obtain ⟨howned, hallocated⟩ := fresh_cell h.owned h.allocated (Nat.le_succ s.store.length)
  rw [newQuery_eq hl hr] at hcells ⊢
  refine ⟨?_, hcells ▸ howned, ?_, ?_, h.answered⟩
  · intro c hc
    have hlen : (s.store ++ [p.captured] ++ [p.captured]).length = s.store.length + 1 + 1 := by
      rw [List.length_append, List.length_append]
      rfl
    rw [hlen]
    exact hallocated c (hcells ▸ hc)
  · intro key
    rw [List.append_assoc]
    exact stored_append h _ key
  · intro q hm
    rcases List.mem_append.mp hm with hm | hm
    · obtain ⟨p', hr', hq'⟩ := h.pending q hm
      exact ⟨p', by rw [List.append_assoc]; exact read_append hr' _, hq'⟩
    · obtain rfl := List.mem_singleton.mp hm
      exact ⟨p, read_copy _ p, hq⟩

theorem setData_invariant {calls : List (Registration ω σ)} {s : State ω σ} (h : Invariant calls s)
    {i : ℕ} (data : StringView) (he : i < s.waiting.length) :
    Invariant calls (setData s i data) := by
  have hq : s.waiting[i]? = some s.waiting[i] := List.getElem?_eq_getElem he
  have hcells : cells (setData s i data) = cells s := by
    rw [setData_eq hq, cells, cells]
    exact congrArg _ (map_set_of_eq hq rfl)
  rw [setData_eq hq] at hcells ⊢
  refine ⟨?_, ?_, h.stored, ?_, h.answered⟩
  · intro c hc
    rw [hcells] at hc
    exact h.allocated c hc
  · rw [hcells]
    exact h.owned
  · intro q hm
    rcases List.mem_or_eq_of_mem_set hm with hm | rfl
    · exact h.pending q hm
    · obtain ⟨p, hr, hnew⟩ := h.pending _ (List.getElem_mem he)
      exact ⟨p, hr, hnew⟩

/-- The cell written to is held by nobody who stays. -/
theorem run_invariant {calls : List (Registration ω σ)} {s : State ω σ} (h : Invariant calls s)
    (w : ω) {i : ℕ} (he : i < s.waiting.length) : Invariant calls (run s w i) := by
  have hq : s.waiting[i]? = some s.waiting[i] := List.getElem?_eq_getElem he
  have hmem : s.waiting[i] ∈ s.waiting := List.getElem_mem he
  generalize s.waiting[i] = q at hq hmem
  obtain ⟨p, hr, hnew⟩ := h.pending q hmem
  obtain ⟨_, howned, hapart⟩ := List.nodup_append.mp h.owned
  have hsub : (cells (run s w i)).Sublist (cells s) := by
    rw [run_eq hq hr]
    exact (List.Sublist.refl _).append ((List.eraseIdx_sublist _ _).map _)
  rw [run_eq hq hr] at hsub ⊢
  refine ⟨?_, hsub.nodup h.owned, ?_, ?_, ?_⟩
  · intro c hc
    rw [List.length_set]
    exact h.allocated c (hsub.mem hc)
  · intro key
    rw [← h.stored key]
    cases hf : s.pathMap.find? key with
    | none => rfl
    | some f =>
      have hcell : f.cell ∈ s.pathMap.entries.map (fun e => e.2.cell) :=
        List.mem_map.mpr ⟨_, UnorderedMap.mem_of_find? hf, rfl⟩
      have hne : q.program.cell ≠ f.cell :=
        (hapart _ hcell _ (List.mem_map_of_mem hmem)).symm
      rw [Option.map_some, Option.map_some, read_set hne]
  · intro r hm
    obtain ⟨p', hr', hnew'⟩ := h.pending r (List.mem_of_mem_eraseIdx hm)
    refine ⟨p', ?_, hnew'⟩
    rw [read_set (cell_notMem_eraseIdx hq howned hm)]
    exact hr'
  · intro a hm
    rcases List.mem_append.mp hm with hm | hm
    · exact h.answered a hm
    · obtain rfl := List.mem_singleton.mp hm
      exact ⟨_, hnew w, rfl⟩

theorem invariant_inductive (calls : List (Registration ω σ)) :
    Inductive (requests calls) (Invariant calls) where
  initial := initial_invariant calls
  step := by
    intro s e h he
    cases e with
    | newQuery target => exact newQuery_invariant h he
    | setData i data => exact setData_invariant h data he
    | run w i => exact run_invariant h w he

theorem reachable_invariant {calls : List (Registration ω σ)} {s : State ω σ}
    (h : Reachable (requests calls) s) : Invariant calls s :=
  (invariant_inductive calls).reachable h

theorem newQuery_enabled {calls : List (Registration ω σ)} {s : State ω σ} (h : Invariant calls s)
    {target : StringView} {w : ω} {query : Query σ}
    (hq : PathResolver.newQuery (resolver calls w) target = .ok query) :
    Enabled s (.newQuery target) := by
  obtain ⟨name, program, hn, hp, _⟩ := newQuery_eq_ok_iff.mp hq
  rw [resolver_find] at hp
  obtain ⟨p, hp, _⟩ := Option.map_eq_some_iff.mp hp
  have hs := h.stored name
  rw [hp, Option.map_some] at hs
  obtain ⟨f, hf, _⟩ := Option.map_eq_some_iff.mp hs
  exact isOk_iff.mpr ⟨f, lookup_eq_ok_iff.mpr ⟨name, hn, hf⟩⟩

theorem first_request {calls : List (Registration ω σ)} {target : StringView} {w : ω}
    {query : Query σ} (hq : PathResolver.newQuery (resolver calls w) target = .ok query)
    (data : StringView) :
    (runTrace (requests calls) (initial calls)
      [.newQuery target, .setData 0 data, .run w 0]).answered =
        [⟨w, target, data, (query.setData data).run.2⟩] := by
  have hi := initial_invariant calls
  obtain ⟨hw, ha⟩ := initial_quiet calls
  obtain ⟨f, p, hl, hr, hnew⟩ := hi.lookup_read (newQuery_enabled hi hq)
  obtain rfl := Except.ok.inj ((hnew w).symm.trans hq)
  change (run (setData (newQuery (initial calls) target) 0 data) w 0).answered = _
  rw [newQuery_eq hl hr, hw]
  have hset := setData_eq (s := { initial calls with
    store := (initial calls).store ++ [p.captured] ++ [p.captured]
    waiting := [⟨target, .empty, ⟨((initial calls).store ++ [p.captured]).length, p.body⟩⟩] })
    (i := 0) rfl data
  rw [List.nil_append, hset, run_eq rfl (read_copy _ p)]
  change (initial calls).answered ++ _ = _
  rw [ha]
  rfl

def clientCalls : List (Registration Environment Path) :=
  [([], ⟨interfaceRoot, fun _ => rootHandler⟩), (text "file", ⟨interfaceRoot, fileHandler⟩),
    (text "query", ⟨[], queryHandler⟩)]

theorem resolver_clientCalls (env : Environment) : resolver clientCalls env = client env := rfl

def captured (s : State ω σ) (key : Bytes) : Option σ :=
  (s.pathMap.find? key).bind fun f => s.store[f.cell]?

theorem captured_eq {calls : List (Registration ω σ)} {s : State ω σ} (h : Invariant calls s)
    {key : Bytes} {p : Callback ω σ} (hp : (callbacks calls).find? key = some p) :
    captured s key = some p.captured := by
  have hs := h.stored key
  rw [hp, Option.map_some] at hs
  obtain ⟨f, hf, hr⟩ := Option.map_eq_some_iff.mp hs
  rw [captured, hf]
  exact (read_eq_some.mp hr).1

theorem run_adds {calls : List (Registration ω σ)} {s : State ω σ} (h : Invariant calls s)
    (w : ω) {i : ℕ} {q : Waiting ω σ} (hq : s.waiting[i]? = some q) :
    (run s w i).waiting = s.waiting.eraseIdx i ∧ ∃ outcome,
      (run s w i).answered = s.answered ++ [⟨w, q.target, q.data, outcome⟩] := by
  obtain ⟨p, hr, _⟩ := h.pending q (List.mem_of_getElem? hq)
  rw [run_eq hq hr w]
  exact ⟨rfl, _, rfl⟩

theorem requests_isolated {s : State Environment Path} (h : Reachable (requests clientCalls) s) :
    captured s [] = some interfaceRoot ∧ captured s (text "file") = some interfaceRoot ∧
      (∀ w i q, s.waiting[i]? = some q →
        (run s w i).waiting = s.waiting.eraseIdx i ∧ ∃ outcome,
          (run s w i).answered = s.answered ++ [⟨w, q.target, q.data, outcome⟩]) ∧
      ∀ a ∈ s.answered, (runTrace (requests clientCalls) (initial clientCalls)
        [.newQuery a.target, .setData 0 a.data, .run a.world 0]).answered = [a] := by
  have hi := reachable_invariant h
  have hroot : (callbacks clientCalls).find? [] = some ⟨interfaceRoot, fun _ => rootHandler⟩ := rfl
  have hfile : (callbacks clientCalls).find? (text "file") =
      some ⟨interfaceRoot, fileHandler⟩ := rfl
  refine ⟨captured_eq hi hroot, captured_eq hi hfile, fun w i q hq => run_adds hi w hq, ?_⟩
  intro a ha
  obtain ⟨query, hq, hrun⟩ := hi.answered a ha
  rw [first_request hq a.data, ← hrun]

def crossing : List (Event Environment) :=
  [.newQuery (.ofText "/file/a.css"), .newQuery (.ofText "/"), .newQuery (.ofText "/file/b.css"),
    .run shortNames 2, .run shortNames 0, .run shortNames 0]

def crossed : State Environment Path :=
  runTrace (requests clientCalls) (initial clientCalls) crossing

theorem crossed_answers : 0 < crossed.answered.length := by decide +kernel

theorem requests_isolated_crossed :
    captured crossed (text "file") = some interfaceRoot ∧
      ∃ a ∈ crossed.answered, a.target = .ofText "/file/b.css" ∧
        a.run = ⟨[.file (text "./root/b.css")], .ok ()⟩ ∧
        (runTrace (requests clientCalls) (initial clientCalls)
          [.newQuery a.target, .setData 0 a.data, .run a.world 0]).answered = [a] :=
  have hv : ValidTrace (requests clientCalls) (initial clientCalls) crossing := by decide +kernel
  have h := requests_isolated (valid_trace_reachable hv)
  have hmem := List.getElem_mem crossed_answers
  ⟨h.2.1, crossed.answered[0], hmem, by decide +kernel, by decide +kernel, h.2.2.2 _ hmem⟩

end QueryIsolation
