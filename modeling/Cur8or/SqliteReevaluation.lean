import Cur8or.SqliteTableCopies

/-! A statement evaluated again and again. Each evaluation takes the cursor away from the tables
returned before; whether the database runs the text more often than it was asked to depends on
who goes on stepping. Each execution may find the database changed, so it has a script of its
own. -/
namespace SqliteReevaluation

open CxxLibrary SqliteRanges TransitionSystem

/-- One entry in `tables` for each evaluation, the latest first; a failed one has no table.
`executions` is a history, the latest first. -/
structure State where
  cursor : Cursor
  tables : List (Option Table)
  executions : List Script

inductive Event where
  | evaluate (script : Script)
  | nextRow (i : ℕ) (script : Script)

def table? (s : State) (i : ℕ) : Option Table := (s.tables[i]?).join

def Enabled (s : State) : Event → Prop
  | .evaluate _ => True
  | .nextRow i _ => (table? s i).isSome = true

instance (s : State) : (e : Event) → Decidable (Enabled s e)
  | .evaluate _ => isTrue trivial
  | .nextRow _ _ => inferInstanceAs (Decidable (_ = true))

def foresee (s : State) (script : Script) : Cursor := { s.cursor with later := fun _ => script }

/-- `Statement::evaluate` always executes the text from its start. -/
def evaluateNow (errstr : ResultCode → Bytes) (s : State) (script : Script) : State :=
  let (outcome, statement) := evaluate errstr (some (foresee s script))
  { cursor := statement.getD s.cursor
    tables := outcome.toOption :: s.tables
    executions := script :: s.executions }

/-- A step does so where the last one came to the end. -/
def reexecute (s : State) (script : Script) : State :=
  { s with
    cursor := foresee s script
    executions := if s.cursor.idle then script :: s.executions else s.executions }

def nextRow (s : State) (i : ℕ) (script : Script) : State :=
  match table? s i with
  | none => s
  | some t =>
    let s := reexecute s script
    { s with
      cursor := s.cursor.step.2
      tables := s.tables.set i (some (t.nextRow (some s.cursor)).1) }

def next (errstr : ResultCode → Bytes) (s : State) : Event → State
  | .evaluate script => evaluateNow errstr s script
  | .nextRow i script => nextRow s i script

/-- From the prepared statement on; nothing is known of its script before it is executed. -/
def statement (errstr : ResultCode → Bytes) (prepared : Script) : System State Event where
  initial := ⟨⟨prepared, fun _ => prepared, 0, false, []⟩, [], []⟩
  Enabled := Enabled
  next := next errstr

instance (errstr : ResultCode → Bytes) (prepared : Script) (s : State) (e : Event) :
    Decidable ((statement errstr prepared).Enabled s e) := inferInstanceAs (Decidable (Enabled s e))

/-- Only the table of the latest evaluation is stepped, and not beyond its end. -/
def Proper (s : State) : Event → Prop
  | .evaluate _ => True
  | .nextRow i _ => i = 0 ∧ (table? s i).map Table.atEnd = some false

instance (s : State) : (e : Event) → Decidable (Proper s e)
  | .evaluate _ => isTrue trivial
  | .nextRow _ _ => inferInstanceAs (Decidable (_ ∧ _))

def properUse (errstr : ResultCode → Bytes) (prepared : Script) : System State Event :=
  (statement errstr prepared).restrict Proper

instance (errstr : ResultCode → Bytes) (prepared : Script) (s : State) (e : Event) :
    Decidable ((properUse errstr prepared).Enabled s e) :=
  inferInstanceAs (Decidable (Enabled s e ∧ Proper s e))

def asked (es : List Event) : List Script :=
  es.foldl (fun scripts e => match e with
    | .evaluate script => script :: scripts
    | .nextRow _ _ => scripts) []

def fetched (es : List Event) : ℕ :=
  es.foldl (fun n e => match e with
    | .evaluate _ => 1
    | .nextRow _ _ => n + 1) 0

def taken (c : Cursor) : ℕ := if c.finished then c.delivered + 1 else c.delivered

/-- Every execution was asked for, and every row of the latest is seen once and in its turn. -/
structure ProperlyUsed (es : List Event) (s : State) : Prop where
  executed : s.executions = asked es
  counted : s.tables ≠ [] → taken s.cursor = fetched es
  row : ∀ t, table? s 0 = some t → t.atEnd = false →
    s.cursor.script.outcomes.at (fetched es - 1) = .row s.cursor.row
  ended : ∀ t, table? s 0 = some t → t.atEnd = true → ∃ rows,
    s.cursor.script.outcomes = .ending rows t.lastOpResult ∧ fetched es = rows.length + 1

inductive Stands (c : Cursor) : ResultCode → Prop
  | row {r} : c.On r → Stands c sqliteRow
  | ended {rows code} : c.finished = true → c.script.outcomes = .ending rows code →
    c.delivered = rows.length → Stands c code

theorem taken_on {c : Cursor} {r : List Cell} (h : c.On r) : taken c = c.delivered := by
  rw [taken, h.unfinished]
  rfl

theorem ending_of_code {o : Outcomes} {n : ℕ} {code : ResultCode} (h : o.at n = .code code) :
    ∃ rows, o = .ending rows code ∧ rows.length ≤ n := by
  cases o with
  | endless row => cases h
  | ending rows terminal =>
    rw [Outcomes.at] at h
    split at h
    · cases h
    · next hn =>
      obtain rfl := Outcome.code.inj h
      exact ⟨rows, rfl, List.getElem?_eq_none_iff.mp hn⟩

theorem step_stands {c : Cursor} (h : c.idle = true ∨ ∃ r, c.On r) :
    Stands c.step.2 c.step.1 ∧ taken c.step.2 = c.execute.delivered + 1 := by
  cases ho : c.execute.script.outcomes.at c.execute.delivered with
  | row r =>
    have hunfinished := c.execute_unfinished
    rw [Cursor.step_row ho]
    refine ⟨.row (r := r) ⟨hunfinished, Nat.succ_pos _, ho⟩, ?_⟩
    rw [taken, hunfinished]
    rfl
  | code code =>
    obtain ⟨rows, hrows, hle⟩ := ending_of_code ho
    have hge : c.execute.delivered ≤ rows.length := by
      rcases h with hi | ⟨r, hon⟩
      · rw [Cursor.execute, if_pos hi]
        exact Nat.zero_le _
      · have hcurrent := hon.current
        rw [hon.execute_eq] at hrows ⊢
        rw [hrows, Outcomes.at] at hcurrent
        split at hcurrent
        · next hget =>
          obtain ⟨hlt, _⟩ := List.getElem?_eq_some_iff.mp hget
          omega
        · cases hcurrent
    rw [Cursor.step_code ho]
    exact ⟨.ended rfl hrows (Nat.le_antisymm hge hle), rfl⟩

theorem stands_atEnd {c : Cursor} {t : Table} (h : Stands c t.lastOpResult) :
    (t.atEnd = false → ∃ r, c.On r) ∧
      (t.atEnd = true → c.finished = true ∧ ∃ rows,
        c.script.outcomes = .ending rows t.lastOpResult ∧ c.delivered = rows.length) := by
  generalize hcode : t.lastOpResult = code at h
  cases h with
  | row hon =>
    refine ⟨fun _ => ⟨_, hon⟩, fun hend => ?_⟩
    exact absurd hcode (of_decide_eq_true hend)
  | ended hf ho hd =>
    refine ⟨fun hopen => ?_, fun _ => ⟨hf, _, ho, hd⟩⟩
    have hend : t.atEnd = true := decide_eq_true (hcode ▸ Script.terminal_ne ho)
    exact absurd (hopen.symm.trans hend) (by decide)

structure Invariant (es : List Event) (s : State) : Prop where
  executed : s.executions = asked es
  counted : s.tables ≠ [] → taken s.cursor = fetched es
  stands : ∀ t, table? s 0 = some t → Stands s.cursor t.lastOpResult

theorem evaluate_step (errstr : ResultCode → Bytes) (c : Cursor) :
    (evaluate errstr (some c)).2 = some c.reset.step.2 ∧
      ∀ t, (evaluate errstr (some c)).1 = .ok t → t.lastOpResult = c.reset.step.1 := by
  rw [evaluate_eq]
  refine ⟨rfl, ?_⟩
  intro t ht
  dsimp only at ht
  split at ht
  · rw [← Except.ok.inj ht]
    rfl
  · cases ht

theorem evaluateNow_eq (errstr : ResultCode → Bytes) (s : State) (script : Script) :
    let stepped := (foresee s script).reset.step
    (evaluateNow errstr s script).cursor = stepped.2 ∧
      ∀ t, table? (evaluateNow errstr s script) 0 = some t → t.lastOpResult = stepped.1 := by
  obtain ⟨hcursor, htable⟩ := evaluate_step errstr (foresee s script)
  refine ⟨congrArg (·.getD s.cursor) hcursor, ?_⟩
  intro t ht
  apply htable t
  change (evaluate errstr (some (foresee s script))).1.toOption = some t at ht
  generalize (evaluate errstr (some (foresee s script))).1 = outcome at ht
  cases outcome with
  | ok u => exact congrArg Except.ok (Option.some.inj ht)
  | error e => cases ht

theorem evaluateNow_invariant (errstr : ResultCode → Bytes) {es : List Event} {s : State}
    (h : Invariant es s) (script : Script) :
    Invariant (es ++ [.evaluate script]) (evaluateNow errstr s script) := by
  obtain ⟨hcursor, htable⟩ := evaluateNow_eq errstr s script
  obtain ⟨hstands, htaken⟩ := step_stands (c := (foresee s script).reset) (.inl rfl)
  refine ⟨?_, ?_, ?_⟩
  · simp only [evaluateNow, asked, List.foldl_append, List.foldl_cons, List.foldl_nil, h.executed]
  · intro _
    rw [hcursor, htaken, Cursor.reset_execute]
    simp only [fetched, List.foldl_append, List.foldl_cons, List.foldl_nil]
  · intro t ht
    rw [hcursor, htable t ht]
    exact hstands

theorem nextRow_invariant {es : List Event} {s : State} (h : Invariant es s) {script : Script}
    {t : Table} (ht : table? s 0 = some t) (hopen : t.atEnd = false) :
    Invariant (es ++ [.nextRow 0 script]) (nextRow s 0 script) := by
  obtain ⟨r, hon⟩ := (stands_atEnd (h.stands t ht)).1 hopen
  have hforeseen : (foresee s script).On r := ⟨hon.unfinished, hon.positive, hon.current⟩
  obtain ⟨hstands, htaken⟩ := step_stands (.inr ⟨r, hforeseen⟩)
  have heq : nextRow s 0 script = { s with
      cursor := (foresee s script).step.2
      tables := s.tables.set 0 (some (t.nextRow (some (foresee s script))).1) } := by
    simp only [nextRow, ht, reexecute, hon.not_idle]
    rfl
  have htables : s.tables ≠ [] := by
    intro hnil
    rw [table?, hnil] at ht
    cases ht
  rw [heq]
  refine ⟨?_, ?_, ?_⟩
  · simp only [asked, List.foldl_append, List.foldl_cons, List.foldl_nil, h.executed]
  · intro _
    have hfetched := h.counted htables
    rw [taken_on hon] at hfetched
    change taken (foresee s script).step.2 = _
    rw [htaken, hforeseen.execute_eq]
    simp only [fetched, List.foldl_append, List.foldl_cons, List.foldl_nil] at hfetched ⊢
    exact congrArg (· + 1) hfetched
  · intro u hu
    obtain ⟨first, rest, hcons⟩ := List.exists_cons_of_ne_nil htables
    rw [table?, hcons] at hu
    obtain rfl := Option.some.inj hu
    exact hstands

theorem run_invariant {errstr : ResultCode → Bytes} {prepared : Script} {es : List Event}
    {s : State}
    (h : Execution (properUse errstr prepared) (properUse errstr prepared).initial es s) :
    Invariant es s := by
  generalize hinit : (properUse errstr prepared).initial = s₀ at h
  induction h with
  | refl =>
    subst hinit
    refine ⟨rfl, fun hne => absurd rfl hne, ?_⟩
    intro t ht
    cases ht
  | @tail es s e _ he ih =>
    obtain ⟨_, hproper⟩ := he
    cases e with
    | evaluate script => exact evaluateNow_invariant errstr ih script
    | nextRow i script =>
      obtain ⟨rfl, hopen⟩ := hproper
      obtain ⟨t, ht, hopen⟩ := Option.map_eq_some_iff.mp hopen
      exact nextRow_invariant ih ht hopen

/-- Used as documented, a statement is executed once for each evaluation, never by itself. -/
theorem proper_use_executes_once {errstr : ResultCode → Bytes} {prepared : Script}
    {es : List Event} {s : State}
    (h : Execution (properUse errstr prepared) (properUse errstr prepared).initial es s) :
    ProperlyUsed es s := by
  have hi := run_invariant h
  have htables : ∀ t, table? s 0 = some t → s.tables ≠ [] := by
    intro t ht hnil
    rw [table?, hnil] at ht
    cases ht
  refine ⟨hi.executed, hi.counted, ?_, ?_⟩
  · intro t ht hopen
    obtain ⟨r, hon⟩ := (stands_atEnd (hi.stands t ht)).1 hopen
    rw [← hi.counted (htables t ht), taken_on hon, hon.current, hon.row_eq]
  · intro t ht hend
    obtain ⟨hf, rows, ho, hd⟩ := (stands_atEnd (hi.stands t ht)).2 hend
    refine ⟨rows, ho, ?_⟩
    rw [← hi.counted (htables t ht), taken, if_pos hf, hd]

def revisited : List Event :=
  [.evaluate (SqliteTableCopies.blankRows 2), .evaluate (SqliteTableCopies.blankRows 1),
    .nextRow 0 (SqliteTableCopies.blankRows 0)]

theorem proper_use_executes_once_revisited :
    ProperlyUsed revisited (runTrace (properUse (fun _ => []) (SqliteTableCopies.blankRows 0))
      (properUse (fun _ => []) (SqliteTableCopies.blankRows 0)).initial revisited) :=
  proper_use_executes_once (valid_trace_execution (by decide +kernel))

def overstepped : List Event :=
  [.evaluate (SqliteTableCopies.blankRows 2), .evaluate (SqliteTableCopies.blankRows 0),
    .nextRow 1 (SqliteTableCopies.blankRows 1)]

/-- Then the text is executed a third time, though the table stood on a row by its own account. -/
example :
    ValidTrace (statement (fun _ => []) (SqliteTableCopies.blankRows 0))
        (statement (fun _ => []) (SqliteTableCopies.blankRows 0)).initial overstepped ∧
      (runTrace (statement (fun _ => []) (SqliteTableCopies.blankRows 0))
        (statement (fun _ => []) (SqliteTableCopies.blankRows 0)).initial
          overstepped).executions.length = (asked overstepped).length + 1 := by
  decide +kernel

end SqliteReevaluation
