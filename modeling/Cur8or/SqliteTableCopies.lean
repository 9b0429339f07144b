import Cur8or.SqliteRanges
import Cur8or.TransitionSystem

/-! Copies of one evaluated table. They share the statement's cursor, yet each caches the outcome
of its own last step, so what a copy believes and where the cursor stands can part ways. -/
namespace SqliteTableCopies

open CxxLibrary SqliteRanges TransitionSystem

/-- A successful evaluation leaves a statement that is not null. An iterator is the index of the
table it points to; the place of a destroyed table stays empty. -/
structure State where
  cursor : Cursor
  tables : List (Option Table)
  iterators : List ℕ

def table? (s : State) (i : ℕ) : Option Table := (s.tables[i]?).join

def Live (s : State) (i : ℕ) (t : Table) : Prop := table? s i = some t

instance (s : State) (i : ℕ) (t : Table) : Decidable (Live s i t) :=
  inferInstanceAs (Decidable (table? s i = some t))

inductive Event where
  | copy (i : ℕ)
  | assign (i j : ℕ)
  | drop (i : ℕ)
  | begin (i : ℕ)
  | increment (k : ℕ)
  deriving DecidableEq, Repr

/-- No event touches a destroyed table, not even through an iterator. -/
def Enabled (s : State) : Event → Prop
  | .copy i | .drop i | .begin i => (table? s i).isSome = true
  | .assign i j => (table? s i).isSome = true ∧ (table? s j).isSome = true
  | .increment k => ((s.iterators[k]?).bind (table? s)).isSome = true

instance (s : State) : (e : Event) → Decidable (Enabled s e)
  | .copy _ | .drop _ | .begin _ => inferInstanceAs (Decidable (_ = true))
  | .assign _ _ => inferInstanceAs (Decidable (_ ∧ _))
  | .increment _ => inferInstanceAs (Decidable (_ = true))

/-- `++` on an iterator into table `i`: `nextRow` steps the shared statement and caches the
outcome in this table only. -/
def nextRowOf (s : State) (i : ℕ) (t : Table) : State :=
  { s with
    cursor := s.cursor.step.2
    tables := s.tables.set i (some (t.nextRow (some s.cursor)).1) }

def next (s : State) : Event → State
  | .copy i => { s with tables := s.tables ++ [table? s i] }
  | .assign i j => { s with tables := s.tables.set i (table? s j) }
  | .drop i => { s with tables := s.tables.set i none }
  | .begin i => { s with iterators := s.iterators ++ [i] }
  | .increment k =>
    match s.iterators[k]? with
    | none => s
    | some i =>
      match table? s i with
      | none => s
      | some t => nextRowOf s i t

def copies (t : Table) (c : Cursor) : System State Event where
  initial := ⟨c, [some t], []⟩
  Enabled := Enabled
  next := next

instance (t : Table) (c : Cursor) (s : State) (e : Event) :
    Decidable ((copies t c).Enabled s e) := inferInstanceAs (Decidable (Enabled s e))

/-- An iterator that is not at the end stands on a row, and incrementing it steps a statement that
still has an outcome to report. -/
structure Agreement (s : State) : Prop where
  cached : ∀ i t, Live s i t → s.cursor.calls.getLast? = some (.step t.lastOpResult)
  standing : ∀ (k i : ℕ) (t : Table), s.iterators[k]? = some i → Live s i t → t.atEnd = false →
    (∃ r, s.cursor.On r) ∧ s.cursor.finished = false

/-- The statement stands on a row and has another one left in the same execution. -/
def Steady (c : Cursor) : Prop :=
  c.idle = false ∧ ∃ r, c.script.outcomes.at c.delivered = .row r

def Alone (s : State) (i : ℕ) : Prop := ∀ j t, Live s j t → j = i

/-- An increment touches the only table left, or changes nothing in what the others cache. -/
def Harmless (s : State) : Event → Prop
  | .increment k => ∀ i, s.iterators[k]? = some i → Alone s i ∨ Steady s.cursor
  | _ => True

def harmlessCopies (t : Table) (c : Cursor) : System State Event := (copies t c).restrict Harmless

inductive Settled (c : Cursor) : ResultCode → Prop
  | row {r} : c.On r → Settled c sqliteRow
  | ended {code} : c.finished = true → c.script.outcomes.at c.delivered = .code code →
    Settled c code

theorem step_settled (c : Cursor) :
    Settled c.step.2 c.step.1 ∧ c.step.2.calls.getLast? = some (.step c.step.1) := by
  cases ho : c.execute.script.outcomes.at c.execute.delivered with
  | row r =>
    have hunfinished := c.execute_unfinished
    rw [Cursor.step_row ho]
    exact ⟨Settled.row (r := r) ⟨hunfinished, Nat.succ_pos _, ho⟩, List.getLast?_concat⟩
  | code code =>
    rw [Cursor.step_code ho]
    exact ⟨Settled.ended rfl ho, List.getLast?_concat⟩

theorem step_of_steady {c : Cursor} {code : ResultCode} (h : Settled c code) (hs : Steady c) :
    c.step.1 = code := by
  obtain ⟨hi, r, ho⟩ := hs
  have hx := Cursor.execute_of_not_idle hi
  rw [Cursor.step_row (by rw [hx]; exact ho)]
  cases h with
  | row _ => rfl
  | ended hf _ =>
    rw [Cursor.idle, hf] at hi
    cases hi

theorem step_of_not_steady {c : Cursor} {code : ResultCode} (h : Settled c code)
    (hs : ¬ Steady c) (hf : c.finished = false) : c.step.1 ≠ code := by
  cases h with
  | row hon =>
    have hi := hon.not_idle
    cases ho : c.script.outcomes.at c.delivered with
    | row r => exact absurd ⟨hi, r, ho⟩ hs
    | code code =>
      rw [Cursor.step_code (by rw [hon.execute_eq]; exact ho)]
      exact c.script.code_ne _ _ ho
  | ended ht _ =>
    rw [hf] at ht
    cases ht

theorem table?_set_ne {s : State} {i j : ℕ} (h : j ≠ i) (x : Option Table) (c : Cursor) :
    table? { s with cursor := c, tables := s.tables.set i x } j = table? s j := by
  rw [table?, List.getElem?_set_ne h.symm]
  rfl

theorem live_set {s : State} {i j : ℕ} {t : Table} {x : Option Table} {c : Cursor}
    (h : Live { s with cursor := c, tables := s.tables.set i x } j t) :
    (j ≠ i ∧ Live s j t) ∨ (j = i ∧ x = some t) := by
  by_cases hj : j = i
  · subst hj
    right
    refine ⟨rfl, ?_⟩
    by_cases hi : j < s.tables.length
    · rw [Live, table?, List.getElem?_set_self hi] at h
      exact h
    · rw [Live, table?, List.getElem?_eq_none (by rw [List.length_set]; omega)] at h
      cases h
  · left
    rw [Live, table?_set_ne hj] at h
    exact ⟨hj, h⟩

theorem next_quiet {s : State} {e : Event} (he : ∀ k, e ≠ .increment k) :
    (next s e).cursor = s.cursor ∧ ∀ j t, Live (next s e) j t → ∃ i, Live s i t := by
  cases e with
  | copy i =>
    refine ⟨rfl, ?_⟩
    intro j t h
    change ((s.tables ++ [table? s i])[j]?).join = some t at h
    rw [List.getElem?_append] at h
    split at h
    · exact ⟨j, h⟩
    · cases hj : j - s.tables.length with
      | zero =>
        rw [hj] at h
        exact ⟨i, h⟩
      | succ n =>
        rw [hj] at h
        cases h
  | assign i j =>
    refine ⟨rfl, ?_⟩
    intro l t h
    rcases live_set h with ⟨_, hl⟩ | ⟨_, hx⟩
    · exact ⟨l, hl⟩
    · exact ⟨j, hx⟩
  | drop i =>
    refine ⟨rfl, ?_⟩
    intro l t h
    rcases live_set h with ⟨_, hl⟩ | ⟨_, hx⟩
    · exact ⟨l, hl⟩
    · cases hx
  | begin i => exact ⟨rfl, fun j t h => ⟨j, h⟩⟩
  | increment k => exact absurd rfl (he k)

theorem enabled_increment {s : State} {k : ℕ} (he : Enabled s (.increment k)) :
    ∃ i t, s.iterators[k]? = some i ∧ Live s i t ∧ next s (.increment k) = nextRowOf s i t := by
  change ((s.iterators[k]?).bind (table? s)).isSome = true at he
  obtain ⟨t, ht⟩ := Option.isSome_iff_exists.mp he
  obtain ⟨i, hi, hl⟩ := Option.bind_eq_some_iff.mp ht
  refine ⟨i, t, hi, hl, ?_⟩
  rw [next, hi]
  dsimp only
  rw [hl]

/-- All live tables cache the code of the step the cursor is settled after. -/
def Invariant (s : State) : Prop :=
  ∃ code, Settled s.cursor code ∧ s.cursor.calls.getLast? = some (.step code) ∧
    ∀ i t, Live s i t → t.lastOpResult = code

theorem evaluated_invariant {errstr : ResultCode → Bytes} {stmt : Stmt} {t : Table}
    {c : Cursor} (h : evaluate errstr stmt = (.ok t, some c)) :
    Invariant ⟨c, [some t], []⟩ := by
  cases stmt with
  | none =>
    rw [evaluate_eq] at h
    cases h
  | some c₀ =>
    rw [evaluate_eq] at h
    obtain ⟨hsettled, hcalls⟩ := step_settled c₀.reset
    obtain ⟨ht, hc⟩ := Prod.mk.inj h
    obtain rfl : c₀.reset.step.2 = c := Option.some.inj hc
    refine ⟨_, hsettled, hcalls, ?_⟩
    intro i u hl
    have hu : u = t := by
      cases i with
      | zero => exact (Option.some.inj hl).symm
      | succ i => cases hl
    split at ht
    · rw [hu, ← Except.ok.inj ht]
      rfl
    · cases ht

theorem step_invariant {s : State} (h : Invariant s) {e : Event} (he : Enabled s e)
    (hh : Harmless s e) : Invariant (next s e) := by
  obtain ⟨code, hsettled, hcalls, hcached⟩ := h
  by_cases hinc : ∃ k, e = .increment k
  · obtain ⟨k, rfl⟩ := hinc
    obtain ⟨i, t, hk, hl, hnext⟩ := enabled_increment he
    obtain ⟨hsettled', hcalls'⟩ := step_settled s.cursor
    rw [hnext]
    refine ⟨s.cursor.step.1, hsettled', hcalls', ?_⟩
    intro j u hu
    rcases live_set hu with ⟨hne, hlive⟩ | ⟨_, hx⟩
    · rcases hh i hk with halone | hsteady
      · exact absurd (halone j u hlive) hne
      · rw [hcached j u hlive, step_of_steady hsettled hsteady]
    · rw [← Option.some.inj hx]
      rfl
  · obtain ⟨hcursor, hlive⟩ := next_quiet (s := s) fun k hk => hinc ⟨k, hk⟩
    refine ⟨code, hcursor ▸ hsettled, hcursor ▸ hcalls, ?_⟩
    intro j u hu
    obtain ⟨i, hi⟩ := hlive j u hu
    exact hcached i u hi

theorem agreement_of_invariant {s : State} (h : Invariant s) : Agreement s := by
  obtain ⟨code, hsettled, hcalls, hcached⟩ := h
  constructor
  · intro i t hl
    rw [hcalls, hcached i t hl]
  · intro k i t _ hl hend
    have hrow : code = sqliteRow := by
      rw [← hcached i t hl]
      by_contra hne
      rw [Table.atEnd, decide_eq_true hne] at hend
      cases hend
    cases hsettled with
    | row hon => exact ⟨⟨_, hon⟩, hon.unfinished⟩
    | ended _ ho => exact absurd hrow (s.cursor.script.code_ne _ _ ho)

theorem copies_agree {errstr : ResultCode → Bytes} {stmt : Stmt} {t : Table}
    {c : Cursor} (he : evaluate errstr stmt = (.ok t, some c)) {s : State}
    (h : Reachable (harmlessCopies t c) s) : Agreement s := by
  have hi : Inductive (harmlessCopies t c) Invariant :=
    ⟨evaluated_invariant he, fun _ _ hs henabled => step_invariant hs henabled.1 henabled.2⟩
  exact agreement_of_invariant (hi.reachable h)

/-- Any other increment leaves some live table with a code that is out of date, unless it executes
a finished statement again and happens on the old code. -/
theorem agreement_lost {s : State} (h : Invariant s) {e : Event} (he : Enabled s e)
    (hh : ¬ Harmless s e)
    (hnew : s.cursor.finished = true → ∀ i t, Live s i t → s.cursor.step.1 ≠ t.lastOpResult) :
    ¬ Agreement (next s e) := by
  obtain ⟨code, hsettled, _, hcached⟩ := h
  cases e with
  | increment k =>
    obtain ⟨i, t, hk, hl, hnext⟩ := enabled_increment he
    have hbad : ¬ (Alone s i ∨ Steady s.cursor) := by
      intro hgood
      apply hh
      intro j hj
      obtain rfl := Option.some.inj (hj.symm.trans hk)
      exact hgood
    rw [not_or] at hbad
    obtain ⟨hcompany, hunsteady⟩ := hbad
    simp only [Alone, not_forall] at hcompany
    obtain ⟨j, u, hu, hne⟩ := hcompany
    have hu' : Live (nextRowOf s i t) j u := by
      rw [Live, nextRowOf, table?_set_ne hne]
      exact hu
    intro hagree
    rw [hnext] at hagree
    have hlast := (step_settled s.cursor).2
    have hcode := hagree.cached j u hu'
    rw [hcached j u hu] at hcode
    have hsame := Call.step.inj (Option.some.inj (hlast.symm.trans hcode))
    cases hf : s.cursor.finished with
    | true => exact hnew hf j u hu (hsame.trans (hcached j u hu).symm)
    | false => exact step_of_not_steady hsettled hunsteady hf hsame
  | copy i => exact absurd trivial hh
  | assign i j => exact absurd trivial hh
  | drop i => exact absurd trivial hh
  | begin i => exact absurd trivial hh

def blankRows (n : ℕ) : Script :=
  .ending [[]] (List.replicate n [.null]) sqliteDone
    (by
      intro r hr
      rw [List.eq_of_mem_replicate hr]
      rfl)
    sqliteDone_ne_row

def prepared (n : ℕ) : Cursor := ⟨blankRows n, fun _ => blankRows n, 0, false, []⟩

theorem evaluate_blankRows (n : ℕ) :
    evaluate (fun _ => []) (some (prepared (n + 1))) =
      (.ok ⟨sqliteRow, 1⟩, some (prepared (n + 1)).started) :=
  evaluate_row _ (Script.outcomes_row (n := 0) rfl (by simp))

theorem copies_agree_midway :
    Agreement (runTrace (harmlessCopies ⟨sqliteRow, 1⟩ (prepared 2).started)
      ⟨(prepared 2).started, [some ⟨sqliteRow, 1⟩], []⟩ [.copy 0, .begin 1, .increment 0]) := by
  refine copies_agree (evaluate_blankRows 1) (valid_trace_reachable ?_)
  refine ⟨⟨rfl, trivial⟩, ⟨rfl, trivial⟩, ⟨rfl, ?_⟩, trivial⟩
  intro i _
  exact Or.inr ⟨rfl, _, rfl⟩

def overtaken : State :=
  runTrace (copies ⟨sqliteRow, 1⟩ (prepared 1).started)
    (copies ⟨sqliteRow, 1⟩ (prepared 1).started).initial [.copy 0, .begin 0, .begin 1, .increment 0]

/-- The copy left behind still shows a row, and its iterator executes the statement again. -/
theorem copy_left_behind :
    evaluate (fun _ => []) (some (prepared 1)) =
        (.ok ⟨sqliteRow, 1⟩, some (prepared 1).started) ∧
      Reachable (copies ⟨sqliteRow, 1⟩ (prepared 1).started) overtaken ∧
      Enabled overtaken (.increment 1) ∧ overtaken.cursor.finished = true ∧
      (next overtaken (.increment 1)).cursor.calls =
        [.reset, .step sqliteRow, .step sqliteDone, .step sqliteRow] ∧
      ¬ Agreement overtaken := by
  refine ⟨evaluate_blankRows 0, valid_trace_reachable (by decide +kernel), by decide +kernel,
    by decide +kernel, by decide +kernel, ?_⟩
  intro h
  have hcached := h.cached 1 ⟨sqliteRow, 1⟩ (by decide +kernel)
  revert hcached
  decide +kernel

end SqliteTableCopies
