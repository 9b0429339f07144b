import Cur8or.CxxLibrary
import Mathlib.Data.List.Range

/-! A prepared statement as a cursor over what its executions deliver, and the ranges the code puts
over it: the table of rows and the row of fields. Every call on the statement is logged, and every
single call is assumed to return. -/
namespace SqliteRanges

open CxxLibrary

abbrev ResultCode := Int32

def sqliteOk : ResultCode := 0
def sqliteMisuse : ResultCode := 21
def sqliteRow : ResultCode := 100
def sqliteDone : ResultCode := 101

theorem sqliteDone_ne_row : sqliteDone ≠ sqliteRow := by decide

/-- The datum of an IEEE double; nothing here computes with it. -/
abbrev Double := BitVec 64

inductive Cell where
  | integer (v : Int64)
  | float (d : Double)
  | text (b : Bytes)
  | blob (b : Bytes)
  | null
  deriving DecidableEq

inductive Outcome where
  | row (r : List Cell)
  | code (c : ResultCode)

/-- What `sqlite3_step` delivers over one execution: rows and then one other code, or rows without
end. -/
inductive Outcomes where
  | ending (rows : List (List Cell)) (terminal : ResultCode)
  | endless (row : ℕ → List Cell)

def Outcomes.at : Outcomes → ℕ → Outcome
  | .ending rows terminal, n =>
    match rows[n]? with
    | some r => .row r
    | none => .code terminal
  | .endless row, n => .row (row n)

structure Script where
  names : List Bytes
  outcomes : Outcomes
  width : ∀ n r, outcomes.at n = .row r → r.length = names.length
  code_ne : ∀ n c, outcomes.at n = .code c → c ≠ sqliteRow

def Script.ending (names : List Bytes) (rows : List (List Cell)) (terminal : ResultCode)
    (hwidth : ∀ r ∈ rows, r.length = names.length) (hne : terminal ≠ sqliteRow) : Script where
  names := names
  outcomes := .ending rows terminal
  width := by
    intro n r h
    rw [Outcomes.at] at h
    split at h
    · next s hs =>
      obtain rfl := Outcome.row.inj h
      exact hwidth s (List.mem_of_getElem? hs)
    · cases h
  code_ne := by
    intro n c h
    rw [Outcomes.at] at h
    split at h
    · cases h
    · obtain rfl := Outcome.code.inj h
      exact hne

def Script.endless (names : List Bytes) (r : List Cell) (hwidth : r.length = names.length) :
    Script where
  names := names
  outcomes := .endless fun _ => r
  width := by
    intro n s h
    obtain rfl := Outcome.row.inj h
    exact hwidth
  code_ne := by
    intro n c h
    cases h

theorem Script.outcomes_row {script : Script} {rows : List (List Cell)} {terminal : ResultCode}
    (h : script.outcomes = .ending rows terminal) {n : ℕ} (hn : n < rows.length) :
    script.outcomes.at n = .row rows[n] := by
  rw [h, Outcomes.at, List.getElem?_eq_getElem hn]

theorem Script.outcomes_code {script : Script} {rows : List (List Cell)} {terminal : ResultCode}
    (h : script.outcomes = .ending rows terminal) {n : ℕ} (hn : rows.length ≤ n) :
    script.outcomes.at n = .code terminal := by
  rw [h, Outcomes.at, List.getElem?_eq_none hn]

theorem Script.terminal_ne {script : Script} {rows : List (List Cell)} {terminal : ResultCode}
    (h : script.outcomes = .ending rows terminal) : terminal ≠ sqliteRow :=
  script.code_ne _ _ (script.outcomes_code h (le_refl _))

inductive Call where
  | reset
  | step (code : ResultCode)
  deriving DecidableEq

/-- `script` is what the latest execution delivers and `later` what the ones still to come do; the
database may change in between. -/
structure Cursor where
  script : Script
  later : ℕ → Script
  delivered : ℕ
  finished : Bool
  calls : List Call

/-- A `sqlite3_stmt*`; preparing an empty text succeeds with a null pointer. -/
abbrev Stmt := Option Cursor

def Cursor.idle (c : Cursor) : Bool := c.finished || c.delivered == 0

/-- A step begins the next execution unless one is under way: so after a reset, but also on a
statement that is finished. -/
def Cursor.execute (c : Cursor) : Cursor :=
  if c.idle then
    { c with
      script := c.later 0
      later := fun n => c.later (n + 1)
      delivered := 0
      finished := false }
  else c

def Cursor.step (c : Cursor) : ResultCode × Cursor :=
  let c := c.execute
  match c.script.outcomes.at c.delivered with
  | .row _ =>
    (sqliteRow, { c with
      delivered := c.delivered + 1
      calls := c.calls ++ [.step sqliteRow] })
  | .code code =>
    (code, { c with
      finished := true
      calls := c.calls ++ [.step code] })

theorem Cursor.execute_of_not_idle {c : Cursor} (h : c.idle = false) : c.execute = c := by
  rw [Cursor.execute, h]
  rfl

theorem Cursor.execute_unfinished (c : Cursor) : c.execute.finished = false := by
  rw [Cursor.execute]
  split
  · rfl
  · next hi => exact (Bool.or_eq_false_iff.mp (Bool.of_not_eq_true hi)).1

theorem Cursor.step_row {c : Cursor} {r : List Cell}
    (h : c.execute.script.outcomes.at c.execute.delivered = .row r) :
    c.step = (sqliteRow, { c.execute with
      delivered := c.execute.delivered + 1
      calls := c.execute.calls ++ [.step sqliteRow] }) := by
  rw [Cursor.step]
  simp only [h]

theorem Cursor.step_code {c : Cursor} {code : ResultCode}
    (h : c.execute.script.outcomes.at c.execute.delivered = .code code) :
    c.step = (code, { c.execute with
      finished := true
      calls := c.execute.calls ++ [.step code] }) := by
  rw [Cursor.step]
  simp only [h]

def sqlite3Step : Stmt → ResultCode × Stmt
  | none => (sqliteMisuse, none)
  | some c => (c.step.1, some c.step.2)

def Cursor.reset (c : Cursor) : Cursor :=
  { c with delivered := 0, finished := false, calls := c.calls ++ [.reset] }

def sqlite3Reset : Stmt → Stmt
  | none => none
  | some c => some c.reset

def sqlite3ColumnCount : Stmt → ℕ
  | none => 0
  | some c => c.script.names.length

def Cursor.row (c : Cursor) : List Cell :=
  if c.finished then []
  else
    match c.script.outcomes.at (c.delivered - 1) with
    | .row r => r
    | .code _ => []

def sqlite3Column (s : Stmt) (column : ℤ) : Cell :=
  match s with
  | none => .null
  | some c => (c.row[column.toNat]?).getD .null

def sqlite3ColumnName (s : Stmt) (column : ℤ) : Bytes :=
  match s with
  | none => []
  | some c => (c.script.names[column.toNat]?).getD []

/-- `row_` points to the row iterated over; `ρ` is the type of those addresses. -/
structure RowIterator (ρ : Type*) where
  row : ρ
  column : ℤ
  deriving DecidableEq

namespace RowIterator

variable {ρ : Type*}

def begin (row : ρ) : RowIterator ρ := ⟨row, 0⟩

def «end» (row : ρ) (columnCount : ℕ) : RowIterator ρ := ⟨row, columnCount⟩

def increment (a : RowIterator ρ) : RowIterator ρ := { a with column := a.column + 1 }

/-- `operator==`, which compares the second row with itself. -/
def equal (a b : RowIterator ρ) : Prop := a.column = b.column ∧ b.row = b.row

instance [DecidableEq ρ] (a b : RowIterator ρ) : Decidable (a.equal b) :=
  inferInstanceAs (Decidable (_ ∧ _))

theorem begin_le_end (row : ρ) (columnCount : ℕ) :
    (begin row).column ≤ («end» row columnCount).column := Int.natCast_nonneg columnCount

theorem equal_iff {a b : RowIterator ρ} : a.equal b ↔ a.column = b.column :=
  and_iff_left rfl

theorem increment_le (a : RowIterator ρ) {b : RowIterator ρ} (h : a.column ≤ b.column)
    (hne : ¬ a.equal b) : a.increment.column ≤ b.column := by
  have hc : a.column ≠ b.column := fun e => hne (equal_iff.mpr e)
  simp only [increment]
  omega

end RowIterator

/-- `for (auto field : row)`, with what is made of the field of each column. -/
def forEachField {ρ α : Type*} [DecidableEq ρ] (visit : ℤ → α) (it last : RowIterator ρ)
    (h : it.column ≤ last.column) : List α :=
  if he : it.equal last then []
  else visit it.column :: forEachField visit it.increment last (it.increment_le h he)
termination_by (last.column - it.column).toNat
decreasing_by
  have hn := it.increment_le h he
  simp only [RowIterator.increment] at hn ⊢
  omega

theorem forEachField_eq {ρ α : Type*} [DecidableEq ρ] (visit : ℤ → α) {it last : RowIterator ρ}
    (h : it.column ≤ last.column) {i n : ℕ} (hi : it.column = i) (hn : last.column = i + n) :
    forEachField visit it last h = (List.range' i n).map (fun j => visit (j : ℕ)) := by
  induction n generalizing it i with
  | zero =>
    have he : it.equal last := RowIterator.equal_iff.mpr (by omega)
    rw [forEachField, dif_pos he]
    rfl
  | succ n ih =>
    have he : ¬ it.equal last := fun e => by
      have := RowIterator.equal_iff.mp e
      omega
    have hnext : it.increment.column = (i + 1 : ℕ) := by
      rw [RowIterator.increment, hi]
      rfl
    rw [forEachField, dif_neg he, ih _ hnext (by omega), hi, List.range'_succ, List.map_cons]

theorem forEachField_row {ρ α : Type*} [DecidableEq ρ] (visit : ℤ → α) (row : ρ) (n : ℕ) :
    forEachField visit _ _ (RowIterator.begin_le_end row n) =
      (List.range n).map (fun j => visit (j : ℕ)) := by
  have hlast : (RowIterator.end row n).column = (0 : ℕ) + (n : ℤ) := (Int.zero_add n).symm
  rw [forEachField_eq visit _ rfl hlast, List.range_eq_range']

/-- A table without its guard: the statement it shares with its copies is passed along. -/
structure Table where
  lastOpResult : ResultCode
  columnCount : ℕ
  deriving DecidableEq

namespace Table

def nextRow (t : Table) (s : Stmt) : Table × Stmt :=
  ({ t with lastOpResult := (sqlite3Step s).1 }, (sqlite3Step s).2)

/-- `Sentinel::operator==` -/
def atEnd (t : Table) : Bool := t.lastOpResult ≠ sqliteRow

end Table

/-- `for (auto row : table)`, followed for at most `fuel` passes, with what is made of the statement
at each row. -/
def forEachRowFor {α : Type*} (visit : Stmt → α) :
    ℕ → Table → Stmt → Option (List α × Table × Stmt)
  | 0, _, _ => none
  | fuel + 1, t, s =>
    if t.atEnd then some ([], t, s)
    else
      (forEachRowFor visit fuel (t.nextRow s).1 (t.nextRow s).2).map fun rest =>
        (visit s :: rest.1, rest.2)

def Outcomes.length : Outcomes → ℕ
  | .ending rows _ => rows.length
  | .endless _ => 0

def limit : Stmt → ℕ
  | none => 2
  | some c => c.script.outcomes.length + (c.later 0).outcomes.length + 3

/-- The whole loop, or nothing when it does not end. -/
def forEachRow {α : Type*} (visit : Stmt → α) (t : Table) (s : Stmt) :
    Option (List α × Table × Stmt) :=
  forEachRowFor visit (limit s) t s

structure SqliteError where
  errorCode : ResultCode
  errorMsg : Bytes
  deriving DecidableEq

/-- `Statement::evaluate`; the table and the statement share the cursor, which comes second. -/
def evaluate (errstr : ResultCode → Bytes) (s : Stmt) : Except SqliteError Table × Stmt :=
  let (result, s) := sqlite3Step (sqlite3Reset s)
  if result = sqliteDone ∨ result = sqliteRow then (.ok ⟨result, sqlite3ColumnCount s⟩, s)
  else (.error ⟨result, errstr result⟩, s)

/-- The cursor stands on a row it delivered. -/
structure Cursor.On (c : Cursor) (r : List Cell) : Prop where
  unfinished : c.finished = false
  positive : 0 < c.delivered
  current : c.script.outcomes.at (c.delivered - 1) = .row r

theorem Cursor.On.row_eq {c : Cursor} {r : List Cell} (h : c.On r) : c.row = r := by
  rw [Cursor.row, h.unfinished, h.current]
  rfl

theorem Cursor.On.length_eq {c : Cursor} {r : List Cell} (h : c.On r) :
    r.length = c.script.names.length :=
  c.script.width _ r h.current

theorem Cursor.On.not_idle {c : Cursor} {r : List Cell} (h : c.On r) : c.idle = false := by
  have hpos := h.positive
  simp only [Cursor.idle, h.unfinished, Bool.false_or, beq_eq_false_iff_ne]
  omega

theorem Cursor.On.execute_eq {c : Cursor} {r : List Cell} (h : c.On r) : c.execute = c :=
  Cursor.execute_of_not_idle h.not_idle

theorem atEnd_eq_false {t : Table} : t.atEnd = false ↔ t.lastOpResult = sqliteRow := by
  simp [Table.atEnd]

theorem Cursor.step_of_row {c : Cursor} (h : c.step.1 = sqliteRow) :
    c.step.2.idle = false ∧ c.step.2.script = c.execute.script ∧
      c.step.2.delivered = c.execute.delivered + 1 := by
  cases ho : c.execute.script.outcomes.at c.execute.delivered with
  | row r =>
    rw [Cursor.step_row ho]
    refine ⟨?_, rfl, rfl⟩
    simp [Cursor.idle, c.execute_unfinished]
  | code code =>
    rw [Cursor.step_code ho] at h
    exact absurd h (c.execute.script.code_ne _ _ ho)

theorem forEachRowFor_of_atEnd {α : Type*} (visit : Stmt → α) {t : Table} (h : t.atEnd = true)
    (fuel : ℕ) (s : Stmt) : forEachRowFor visit (fuel + 1) t s = some ([], t, s) := by
  rw [forEachRowFor, if_pos h]

theorem forEachRowFor_mono {α : Type*} {visit : Stmt → α} {n m : ℕ} {t : Table} {s : Stmt}
    {result : List α × Table × Stmt} (h : forEachRowFor visit n t s = some result) (hnm : n ≤ m) :
    forEachRowFor visit m t s = some result := by
  induction n generalizing m t s result with
  | zero => cases h
  | succ n ih =>
    obtain ⟨m, rfl⟩ := Nat.exists_eq_succ_of_ne_zero (show m ≠ 0 by omega)
    rw [forEachRowFor] at h ⊢
    split at h
    · next hend => rw [if_pos hend, h]
    · next hend =>
      obtain ⟨rest, hrest, hr⟩ := Option.map_eq_some_iff.mp h
      rw [if_neg hend, ih hrest (Nat.le_of_succ_le_succ hnm), Option.map_some, hr]

theorem forEachRowFor_endless {α : Type*} (visit : Stmt → α) (n : ℕ) {t : Table}
    (ht : t.atEnd = false) {c : Cursor} (hi : c.idle = false) {row : ℕ → List Cell}
    (ho : c.script.outcomes = .endless row) : forEachRowFor visit n t (some c) = none := by
  induction n generalizing t c with
  | zero => rfl
  | succ n ih =>
    have hx := Cursor.execute_of_not_idle hi
    have hrow : c.execute.script.outcomes.at c.execute.delivered = .row (row c.delivered) := by
      rw [hx, ho, Outcomes.at]
    have hstep : c.step.1 = sqliteRow := congrArg Prod.fst (Cursor.step_row hrow)
    obtain ⟨hi', hs, _⟩ := Cursor.step_of_row hstep
    have ht' : (t.nextRow (some c)).1.atEnd = false := atEnd_eq_false.mpr hstep
    have hrest : forEachRowFor visit n (t.nextRow (some c)).1 (t.nextRow (some c)).2 = none :=
      ih ht' hi' (by rw [hs, hx, ho])
    rw [forEachRowFor, ht, hrest]
    rfl

/-- One pass for each row that is left, one more for the other code, and one to see it. -/
theorem forEachRowFor_isSome {α : Type*} (visit : Stmt → α) {rows : List (List Cell)}
    {terminal : ResultCode} {n : ℕ} (t : Table) {c : Cursor} (hi : c.idle = false)
    (ho : c.script.outcomes = .ending rows terminal) (hn : rows.length - c.delivered + 2 ≤ n) :
    (forEachRowFor visit n t (some c)).isSome = true := by
  induction n generalizing t c with
  | zero => omega
  | succ n ih =>
    have hx := Cursor.execute_of_not_idle hi
    rw [forEachRowFor]
    split
    · rfl
    rw [Option.isSome_map]
    by_cases hlt : c.delivered < rows.length
    · have hrow : c.execute.script.outcomes.at c.execute.delivered = .row rows[c.delivered] := by
        rw [hx]
        exact Script.outcomes_row ho hlt
      obtain ⟨hi', hs, hd⟩ := Cursor.step_of_row (congrArg Prod.fst (Cursor.step_row hrow))
      refine ih _ hi' (by rw [hs, hx, ho]) ?_
      rw [hd, hx]
      omega
    · have hcode : c.execute.script.outcomes.at c.execute.delivered = .code terminal := by
        rw [hx]
        exact Script.outcomes_code ho (Nat.le_of_not_lt hlt)
      have hend : (t.nextRow (some c)).1.atEnd = true := by
        rw [Table.nextRow, sqlite3Step, Cursor.step_code hcode]
        exact decide_eq_true (Script.terminal_ne ho)
      obtain ⟨n, rfl⟩ := Nat.exists_eq_succ_of_ne_zero (show n ≠ 0 by omega)
      rw [forEachRowFor_of_atEnd visit hend]
      rfl

theorem forEachRowFor_running {α : Type*} {visit : Stmt → α} {n : ℕ} {t : Table} {c : Cursor}
    (hi : c.idle = false) (h : (forEachRowFor visit n t (some c)).isSome = true) :
    (forEachRowFor visit (c.script.outcomes.length + 2) t (some c)).isSome = true := by
  cases ho : c.script.outcomes with
  | ending rows terminal =>
    refine forEachRowFor_isSome visit t hi ho ?_
    rw [Outcomes.length]
    omega
  | endless row =>
    cases ht : t.atEnd with
    | true =>
      rw [forEachRowFor_of_atEnd visit ht]
      rfl
    | false =>
      rw [forEachRowFor_endless visit n ht hi ho] at h
      cases h

theorem forEachRowFor_limit {α : Type*} {visit : Stmt → α} {n : ℕ} {t : Table} {s : Stmt}
    (h : (forEachRowFor visit n t s).isSome = true) :
    (forEachRowFor visit (limit s) t s).isSome = true := by
  have hmono : ∀ {k m : ℕ} {t : Table} {s : Stmt}, k ≤ m →
      (forEachRowFor visit k t s).isSome = true → (forEachRowFor visit m t s).isSome = true := by
    intro k m t s hkm hk
    obtain ⟨result, hresult⟩ := Option.isSome_iff_exists.mp hk
    rw [forEachRowFor_mono hresult hkm]
    rfl
  cases s with
  | none =>
    rw [limit, forEachRowFor]
    split
    · rfl
    · rw [Option.isSome_map, forEachRowFor_of_atEnd visit (by rfl)]
      rfl
  | some c =>
    cases hi : c.idle with
    | false =>
      exact hmono (by rw [limit]; omega) (forEachRowFor_running hi h)
    | true =>
      have hx : c.execute.script = c.later 0 := by rw [Cursor.execute, if_pos hi]
      cases n with
      | zero => cases h
      | succ n =>
        rw [limit, forEachRowFor]
        rw [forEachRowFor] at h
        split at h
        · next hend => rw [if_pos hend]; rfl
        · next hend =>
          rw [if_neg hend, Option.isSome_map]
          rw [Option.isSome_map] at h
          by_cases hrow : c.step.1 = sqliteRow
          · obtain ⟨hi', hs, _⟩ := Cursor.step_of_row hrow
            refine hmono ?_ (forEachRowFor_running hi' h)
            rw [hs, hx]
            omega
          · have hend' : (t.nextRow (some c)).1.atEnd = true := decide_eq_true hrow
            rw [forEachRowFor_of_atEnd visit hend']
            rfl

theorem forEachRow_eq_some_iff {α : Type*} {visit : Stmt → α} {t : Table} {s : Stmt}
    {result : List α × Table × Stmt} :
    forEachRow visit t s = some result ↔ ∃ fuel, forEachRowFor visit fuel t s = some result := by
  constructor
  · intro h
    exact ⟨_, h⟩
  · rintro ⟨fuel, h⟩
    have hsome := forEachRowFor_limit (Option.isSome_iff_exists.mpr ⟨_, h⟩)
    obtain ⟨other, hother⟩ := Option.isSome_iff_exists.mp hsome
    have hl := forEachRowFor_mono hother (Nat.le_max_left (limit s) fuel)
    have hr := forEachRowFor_mono h (Nat.le_max_right (limit s) fuel)
    rw [forEachRow, hother, ← hl, hr]

theorem forEachRow_of_atEnd {α : Type*} (visit : Stmt → α) {t : Table} (h : t.atEnd = true)
    (s : Stmt) : forEachRow visit t s = some ([], t, s) :=
  forEachRow_eq_some_iff.mpr ⟨1, forEachRowFor_of_atEnd visit h 0 s⟩

theorem forEachRow_endless {α : Type*} (visit : Stmt → α) {t : Table} (ht : t.atEnd = false)
    {c : Cursor} {r : List Cell} (h : c.On r) {row : ℕ → List Cell}
    (ho : c.script.outcomes = .endless row) : forEachRow visit t (some c) = none :=
  forEachRowFor_endless visit _ ht h.not_idle ho

def Cursor.exhausted (c : Cursor) (rows : List (List Cell)) (terminal : ResultCode) (k : ℕ) :
    Cursor :=
  { c with
    delivered := rows.length
    finished := true
    calls := c.calls ++ (List.replicate k (.step sqliteRow) ++ [.step terminal]) }

theorem Cursor.step_inside {c : Cursor} {rows : List (List Cell)} {terminal : ResultCode}
    {r r' : List Cell} {rest : List (List Cell)} (h : c.On r)
    (ho : c.script.outcomes = .ending rows terminal)
    (hd : rows.drop (c.delivered - 1) = r :: r' :: rest) :
    ∃ c', c.step = (sqliteRow, c') ∧ c'.On r' ∧ c'.script = c.script ∧
      rows.drop (c'.delivered - 1) = r' :: rest ∧
      ∀ k, c'.exhausted rows terminal k = c.exhausted rows terminal (k + 1) := by
  have hpos := h.positive
  have hnext : rows.drop c.delivered = r' :: rest := by
    rw [← Nat.sub_add_cancel hpos, ← List.drop_drop, hd]
    rfl
  have hget : rows[c.delivered]? = some r' := by
    rw [← List.head?_drop, hnext]
    rfl
  have hrow : c.script.outcomes.at c.delivered = .row r' := by rw [ho, Outcomes.at, hget]
  refine ⟨{ c with delivered := c.delivered + 1, calls := c.calls ++ [.step sqliteRow] }, ?_,
    ⟨h.unfinished, Nat.succ_pos _, hrow⟩, rfl, hnext, ?_⟩
  · rw [Cursor.step_row (by rw [h.execute_eq]; exact hrow), h.execute_eq]
  · intro k
    simp only [Cursor.exhausted, List.replicate_succ, List.append_assoc, List.cons_append,
      List.nil_append]

theorem Cursor.step_last {c : Cursor} {rows : List (List Cell)} {terminal : ResultCode}
    {r : List Cell} (h : c.On r) (ho : c.script.outcomes = .ending rows terminal)
    (hd : rows.drop (c.delivered - 1) = [r]) :
    c.step = (terminal, c.exhausted rows terminal 0) := by
  have hlen := congrArg List.length hd
  rw [List.length_drop, List.length_singleton] at hlen
  have hpos := h.positive
  have hdelivered : c.delivered = rows.length := by omega
  have hcode : c.script.outcomes.at c.delivered = .code terminal :=
    Script.outcomes_code ho (Nat.le_of_eq hdelivered.symm)
  rw [Cursor.step_code (by rw [h.execute_eq]; exact hcode), h.execute_eq, Cursor.exhausted,
    ← hdelivered]
  rfl

/-- From a current row on, the loop delivers the rest of the script in order and stops at the
first other code. -/
theorem forEachRow_eq {α : Type*} {visit : Stmt → α} {f : List Cell → α} {script : Script}
    {rows : List (List Cell)} {terminal : ResultCode}
    (ho : script.outcomes = .ending rows terminal)
    (hv : ∀ c r, c.script = script → c.On r → visit (some c) = f r) (n : ℕ) {c : Cursor}
    {r : List Cell} {rest : List (List Cell)} (hs : c.script = script) (h : c.On r)
    (hd : rows.drop (c.delivered - 1) = r :: rest) :
    forEachRow visit ⟨sqliteRow, n⟩ (some c) = some
      ((r :: rest).map f, ⟨terminal, n⟩, some (c.exhausted rows terminal rest.length)) := by
  refine forEachRow_eq_some_iff.mpr ⟨rest.length + 2, ?_⟩
  have hrow : ¬ (Table.mk sqliteRow n).atEnd = true := fun e => of_decide_eq_true e rfl
  have hend : (Table.mk terminal n).atEnd = true := decide_eq_true (Script.terminal_ne ho)
  -- on the rows behind the current one; `exhausted` counts the steps that are still to come
  induction rest generalizing c r with
  | nil =>
    rw [forEachRowFor, if_neg hrow, hv c r hs h]
    simp only [Table.nextRow, sqlite3Step, Cursor.step_last h (hs ▸ ho) hd]
    rw [List.length_nil, forEachRowFor_of_atEnd visit hend]
    rfl
  | cons r' rest ih =>
    obtain ⟨c', hstep, hon, hscript, hdrop, hexhausted⟩ := Cursor.step_inside h (hs ▸ ho) hd
    rw [forEachRowFor, if_neg hrow, hv c r hs h]
    simp only [Table.nextRow, sqlite3Step, hstep]
    rw [List.length_cons, ih (hscript.trans hs) hon hdrop, hexhausted]
    rfl

theorem evaluate_eq (errstr : ResultCode → Bytes) (s : Stmt) :
    evaluate errstr s =
      (if (sqlite3Step (sqlite3Reset s)).1 = sqliteDone ∨
          (sqlite3Step (sqlite3Reset s)).1 = sqliteRow
        then .ok ⟨(sqlite3Step (sqlite3Reset s)).1,
          sqlite3ColumnCount (sqlite3Step (sqlite3Reset s)).2⟩
        else .error ⟨(sqlite3Step (sqlite3Reset s)).1,
          errstr (sqlite3Step (sqlite3Reset s)).1⟩,
        (sqlite3Step (sqlite3Reset s)).2) := by
  simp only [evaluate]
  generalize sqlite3Step (sqlite3Reset s) = first
  obtain ⟨result, s'⟩ := first
  dsimp only
  split
  · rfl
  · rfl

theorem Cursor.reset_execute (c : Cursor) : c.reset.execute = { c with
    script := c.later 0
    later := fun n => c.later (n + 1)
    delivered := 0
    finished := false
    calls := c.calls ++ [.reset] } := rfl

def Cursor.spent (c : Cursor) (code : ResultCode) : Cursor :=
  { c with
    script := c.later 0
    later := fun n => c.later (n + 1)
    delivered := 0
    finished := true
    calls := c.calls ++ [.reset] ++ [.step code] }

def Cursor.started (c : Cursor) : Cursor :=
  { c with
    script := c.later 0
    later := fun n => c.later (n + 1)
    delivered := 1
    finished := false
    calls := c.calls ++ [.reset] ++ [.step sqliteRow] }

theorem evaluate_code (errstr : ResultCode → Bytes) {c : Cursor} {code : ResultCode}
    (h : (c.later 0).outcomes.at 0 = .code code) :
    evaluate errstr (some c) = (if code = sqliteDone
      then .ok ⟨code, (c.later 0).names.length⟩
      else .error ⟨code, errstr code⟩, some (c.spent code)) := by
  have hstep : c.reset.step = (code, c.spent code) := Cursor.step_code h
  have hfirst : sqlite3Step (sqlite3Reset (some c)) = (code, some (c.spent code)) :=
    congrArg (fun p => (p.1, some p.2)) hstep
  rw [evaluate_eq]
  simp only [hfirst, (c.later 0).code_ne 0 code h, or_false]
  rfl

theorem evaluate_row (errstr : ResultCode → Bytes) {c : Cursor} {r : List Cell}
    (h : (c.later 0).outcomes.at 0 = .row r) :
    evaluate errstr (some c) =
      (.ok ⟨sqliteRow, (c.later 0).names.length⟩, some c.started) := by
  have hstep : c.reset.step = (sqliteRow, c.started) := Cursor.step_row h
  have hfirst : sqlite3Step (sqlite3Reset (some c)) = (sqliteRow, some c.started) :=
    congrArg (fun p => (p.1, some p.2)) hstep
  rw [evaluate_eq]
  simp only [hfirst, or_true, if_true]
  rfl

theorem Cursor.started_on {c : Cursor} {r : List Cell}
    (h : (c.later 0).outcomes.at 0 = .row r) : c.started.On r := ⟨rfl, Nat.one_pos, h⟩

end SqliteRanges
