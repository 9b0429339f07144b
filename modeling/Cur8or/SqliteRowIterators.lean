import Cur8or.SqliteRanges

/-! Iterators over the fields of rows: how they move, what they denote, and how far `operator==`
tells the iterators of different rows apart. -/
namespace SqliteRowIterators

open CxxLibrary SqliteRanges

variable {ρ τ : Type*}

/-- The constructor takes any `int` for the number of columns. -/
structure Row (τ : Type*) where
  stmt : τ
  columnCount : Int32

/-- `Row::end()` -/
def last (rows : ρ → Row τ) (row : ρ) : RowIterator ρ := ⟨row, (rows row).columnCount.toInt⟩

def InInt (z : ℤ) : Prop := -(intMax : ℤ) - 1 ≤ z ∧ z ≤ intMax

instance (z : ℤ) : Decidable (InInt z) := inferInstanceAs (Decidable (_ ∧ _))

def InPtrdiff (z : ℤ) : Prop := -2 ^ 63 ≤ z ∧ z < 2 ^ 63

instance (z : ℤ) : Decidable (InPtrdiff z) := inferInstanceAs (Decidable (_ ∧ _))

/-- Conversion to `int`, modular since C++20. -/
def wrapInt (z : ℤ) : ℤ := z.bmod (2 ^ 32)

inductive Move where
  | increment
  | decrement
  | advance (distance : Int64)
  | retreat (distance : Int64)
  deriving DecidableEq

/-- `+=` and `-=` compute in `ptrdiff_t` before they store an `int`. -/
def moved (column : ℤ) : Move → ℤ
  | .increment => column + 1
  | .decrement => column - 1
  | .advance distance => wrapInt (column + distance.toInt)
  | .retreat distance => wrapInt (column - distance.toInt)

/-- Where the arithmetic of the move overflows, the behaviour is undefined. -/
def Defined (column : ℤ) : Move → Prop
  | .increment => InInt (column + 1)
  | .decrement => InInt (column - 1)
  | .advance distance => InPtrdiff (column + distance.toInt)
  | .retreat distance => InPtrdiff (column - distance.toInt)

instance (column : ℤ) : (m : Move) → Decidable (Defined column m)
  | .increment => inferInstanceAs (Decidable (InInt _))
  | .decrement => inferInstanceAs (Decidable (InInt _))
  | .advance _ => inferInstanceAs (Decidable (InPtrdiff _))
  | .retreat _ => inferInstanceAs (Decidable (InPtrdiff _))

def apply (a : RowIterator ρ) (m : Move) : Option (RowIterator ρ) :=
  if Defined a.column m then some { a with column := moved a.column m } else none

def moveAll (a : RowIterator ρ) : List Move → Option (RowIterator ρ)
  | [] => some a
  | m :: ms => (apply a m).bind fun b => moveAll b ms

def difference (a b : RowIterator ρ) : Option ℤ :=
  if InInt (a.column - b.column) then some (a.column - b.column) else none

def deref (rows : ρ → Row τ) (a : RowIterator ρ) : τ × ℤ := ((rows a.row).stmt, a.column)

/-- Reached from `begin()` or `end()` of the row by moves whose behaviour is defined. -/
def Obtained (rows : ρ → Row τ) (row : ρ) (a : RowIterator ρ) : Prop :=
  ∃ start ms, (start = RowIterator.begin row ∨ start = last rows row) ∧ moveAll start ms = some a

theorem apply_eq_some {a b : RowIterator ρ} {m : Move} :
    apply a m = some b ↔ Defined a.column m ∧ b = { a with column := moved a.column m } := by
  unfold apply
  split
  · next h => simp [h, eq_comm]
  · next h => simp [h]

theorem moveAll_row {a b : RowIterator ρ} {ms : List Move} (h : moveAll a ms = some b) :
    b.row = a.row := by
  induction ms generalizing a with
  | nil => rw [Option.some.inj h]
  | cons m ms ih =>
    obtain ⟨c, hc, hb⟩ := Option.bind_eq_some_iff.mp h
    obtain ⟨_, rfl⟩ := apply_eq_some.mp hc
    have hrow := ih hb
    exact hrow

theorem wrapInt_inInt (z : ℤ) : InInt (wrapInt z) := by
  have hle : -(((2 ^ 32 : ℕ) : ℤ) / 2) ≤ z.bmod (2 ^ 32) := Int.le_bmod (by decide)
  have hlt : z.bmod (2 ^ 32) < (((2 ^ 32 : ℕ) : ℤ) + 1) / 2 := Int.bmod_lt (by decide)
  unfold InInt wrapInt intMax
  omega

theorem moved_inInt {column : ℤ} {m : Move} (h : Defined column m) : InInt (moved column m) := by
  cases m with
  | increment => exact h
  | decrement => exact h
  | advance distance => exact wrapInt_inInt _
  | retreat distance => exact wrapInt_inInt _

theorem moveAll_inInt {a b : RowIterator ρ} {ms : List Move} (ha : InInt a.column)
    (h : moveAll a ms = some b) : InInt b.column := by
  induction ms generalizing a with
  | nil => exact Option.some.inj h ▸ ha
  | cons m ms ih =>
    obtain ⟨c, hc, hb⟩ := Option.bind_eq_some_iff.mp h
    obtain ⟨hd, rfl⟩ := apply_eq_some.mp hc
    exact ih (moved_inInt hd) hb

/-- Where an iterator goes depends on its column only. -/
theorem moveAll_of_column_eq {a b a' : RowIterator ρ} {ms : List Move}
    (hc : a.column = b.column) (h : moveAll a ms = some a') :
    ∃ b', moveAll b ms = some b' ∧ a'.column = b'.column := by
  induction ms generalizing a b with
  | nil => exact ⟨b, rfl, Option.some.inj h ▸ hc⟩
  | cons m ms ih =>
    obtain ⟨c, ha, hrest⟩ := Option.bind_eq_some_iff.mp h
    obtain ⟨hd, rfl⟩ := apply_eq_some.mp ha
    have hb : apply b m = some { b with column := moved b.column m } :=
      apply_eq_some.mpr ⟨hc ▸ hd, rfl⟩
    obtain ⟨b', hb', he⟩ := ih (b := { b with column := moved b.column m })
      (congrArg (moved · m) hc) hrest
    refine ⟨b', ?_, he⟩
    rw [moveAll, hb]
    exact hb'

theorem obtained_row {rows : ρ → Row τ} {row : ρ} {a : RowIterator ρ} (h : Obtained rows row a) :
    a.row = row := by
  obtain ⟨start, ms, hstart, hmoves⟩ := h
  rw [moveAll_row hmoves]
  rcases hstart with rfl | rfl
  · rfl
  · rfl

theorem obtained_inInt {rows : ρ → Row τ} {row : ρ} {a : RowIterator ρ}
    (h : Obtained rows row a) : InInt a.column := by
  obtain ⟨start, ms, hstart, hmoves⟩ := h
  refine moveAll_inInt ?_ hmoves
  rcases hstart with rfl | rfl
  · change InInt 0
    decide
  · have hle := (rows row).columnCount.le_toInt
    have hlt := (rows row).columnCount.toInt_lt
    unfold InInt intMax
    simp only [last]
    omega

theorem difference_eq_zero_iff {a b : RowIterator ρ} :
    difference a b = some 0 ↔ a.column = b.column := by
  unfold difference
  constructor
  · intro h
    split at h
    · have := Option.some.inj h
      omega
    · cases h
  · intro h
    rw [h, Int.sub_self, if_pos ⟨by decide, by decide⟩]

structure EqualityLaw (rows : ρ → Row τ) (a b : RowIterator ρ) : Prop where
  iff : a.equal b ↔ a.row = b.row ∧ difference a b = some 0
  deref : a.equal b → deref rows a = deref rows b
  moves : a.equal b → ∀ ms a', moveAll a ms = some a' → ∃ b', moveAll b ms = some b' ∧ a'.equal b'
  apart : a.row ≠ b.row → ¬ a.equal b

/-- The comparison of rows is always true, so only the columns keep two rows apart. -/
theorem equality_law_iff (rows : ρ → Row τ) {r₁ r₂ : ρ} {a b : RowIterator ρ}
    (ha : Obtained rows r₁ a) (hb : Obtained rows r₂ b) :
    EqualityLaw rows a b ↔ r₁ = r₂ ∨ a.column ≠ b.column := by
  have hra := obtained_row ha
  have hrb := obtained_row hb
  constructor
  · intro h
    by_cases hc : a.column = b.column
    · left
      have hrow := (h.iff.mp (RowIterator.equal_iff.mpr hc)).1
      rw [← hra, ← hrb, hrow]
    · exact Or.inr hc
  · rintro (hr | hc)
    · have hrow : a.row = b.row := by rw [hra, hrb, hr]
      refine ⟨?_, ?_, ?_, fun hne => absurd hrow hne⟩
      · rw [RowIterator.equal_iff, difference_eq_zero_iff]
        exact (and_iff_right hrow).symm
      · intro he
        rw [SqliteRowIterators.deref, SqliteRowIterators.deref, hrow, RowIterator.equal_iff.mp he]
      · intro he ms a' hm
        obtain ⟨b', hb', hcol⟩ := moveAll_of_column_eq (RowIterator.equal_iff.mp he) hm
        exact ⟨b', hb', RowIterator.equal_iff.mpr hcol⟩
    · have hne : ¬ a.equal b := fun he => hc (RowIterator.equal_iff.mp he)
      refine ⟨?_, fun he => absurd he hne, fun he => absurd he hne, fun _ => hne⟩
      rw [difference_eq_zero_iff]
      exact iff_of_false hne fun h => hc h.2

def twoColumns (row : ℕ) : Row ℕ := ⟨row, 2⟩

theorem equality_law_iff_stepped :
    EqualityLaw twoColumns (last twoColumns 0) (RowIterator.mk 0 2) := by
  have ha : Obtained twoColumns 0 (last twoColumns 0) := ⟨_, [], Or.inr rfl, rfl⟩
  have hb : Obtained twoColumns 0 (RowIterator.mk 0 2) :=
    ⟨_, [.advance 3, .decrement], Or.inl rfl, by decide +kernel⟩
  exact (equality_law_iff twoColumns ha hb).mpr (Or.inl rfl)

/-- A walk over one row is ended by the end of another. -/
theorem rows_confused :
    Obtained twoColumns 0 (RowIterator.mk 0 2) ∧ Obtained twoColumns 1 (last twoColumns 1) ∧
      (RowIterator.mk 0 2).equal (last twoColumns 1) ∧
      ¬ EqualityLaw twoColumns (RowIterator.mk 0 2) (last twoColumns 1) := by
  have he : (RowIterator.mk 0 2).equal (last twoColumns 1) := by decide +kernel
  refine ⟨⟨_, [.increment, .increment], Or.inl rfl, by decide +kernel⟩,
    ⟨_, [], Or.inr rfl, rfl⟩, he, ?_⟩
  intro h
  exact h.apart (by decide) he

def step : Move → ℤ
  | .increment => 1
  | .decrement => -1
  | .advance distance => distance.toInt
  | .retreat distance => -distance.toInt

def net (ms : List Move) : ℤ := (ms.map step).sum

def threeWay (a b : RowIterator ρ) : Ordering := compare a.column b.column

theorem wrapInt_of_inInt {z : ℤ} (h : InInt z) : wrapInt z = z := by
  unfold InInt intMax at h
  exact Int.bmod_eq_of_le (by omega) (by omega)

theorem wrapInt_wrapInt_add (x y : ℤ) : wrapInt (wrapInt x + y) = wrapInt (x + y) :=
  Int.bmod_add_bmod

theorem moved_eq {column : ℤ} {m : Move} (h : Defined column m) :
    moved column m = wrapInt (column + step m) := by
  cases m with
  | increment => exact (wrapInt_of_inInt h).symm
  | decrement => exact (wrapInt_of_inInt h).symm
  | advance distance => rfl
  | retreat distance => rfl

/-- Of a walk only its net distance is left, and that as an `int`. -/
theorem moveAll_net {a b : RowIterator ρ} {ms : List Move} (ha : InInt a.column)
    (h : moveAll a ms = some b) : b = ⟨a.row, wrapInt (a.column + net ms)⟩ := by
  induction ms generalizing a with
  | nil =>
    obtain rfl := Option.some.inj h
    rw [net, List.map_nil, List.sum_nil, Int.add_zero, wrapInt_of_inInt ha]
  | cons m ms ih =>
    obtain ⟨c, hc, hb⟩ := Option.bind_eq_some_iff.mp h
    obtain ⟨hd, rfl⟩ := apply_eq_some.mp hc
    rw [ih (moved_inInt hd) hb]
    simp only [moved_eq hd, wrapInt_wrapInt_add, net, List.map_cons, List.sum_cons, Int.add_assoc]

theorem wrapInt_eq_iff {x y z : ℤ} :
    wrapInt (z + x) = wrapInt (z + y) ↔ (2 ^ 32 : ℤ) ∣ x - y := by
  rw [wrapInt, wrapInt, Int.bmod_add_cancel_left, Int.bmod_eq_bmod_iff_bmod_sub_eq_zero,
    ← Int.dvd_iff_bmod_eq_zero]
  rfl

structure RandomAccess (a b : RowIterator ρ) (ms : List Move) : Prop where
  meets : ∀ ns c, moveAll a ns = some c → (b = c ↔ (2 ^ 32 : ℤ) ∣ net ms - net ns)
  jump : ∀ d, difference b a = some d → apply a (.advance (Int64.ofInt d)) = some b ∧
    apply b (.retreat (Int64.ofInt d)) = some a
  order : ∀ d, difference b a = some d → threeWay b a = compare d 0
  short : InInt (a.column + net ms) → InInt (net ms) → difference b a = some (net ms)

theorem difference_eq_some {a b : RowIterator ρ} {d : ℤ} :
    difference b a = some d ↔ InInt d ∧ b.column = a.column + d := by
  unfold difference
  constructor
  · intro h
    split at h
    · next hd =>
      obtain rfl := Option.some.inj h
      exact ⟨hd, by omega⟩
    · cases h
  · rintro ⟨hd, hc⟩
    have hsub : b.column - a.column = d := by omega
    rw [hsub, if_pos hd]

theorem toInt_ofInt_of_inInt {d : ℤ} (h : InInt d) : (Int64.ofInt d).toInt = d := by
  unfold InInt intMax at h
  exact Int64.toInt_ofInt_of_le (by omega) (by omega)

theorem inPtrdiff_of_inInt {z : ℤ} (h : InInt z) : InPtrdiff z := by
  unfold InInt intMax at h
  unfold InPtrdiff
  omega

theorem apply_difference {a b : RowIterator ρ} {d : ℤ} (hrow : b.row = a.row)
    (ha : InInt a.column) (hb : InInt b.column) (h : difference b a = some d) :
    apply a (.advance (Int64.ofInt d)) = some b ∧ apply b (.retreat (Int64.ofInt d)) = some a := by
  obtain ⟨hd, hc⟩ := difference_eq_some.mp h
  have hto := toInt_ofInt_of_inInt hd
  have hback : b.column - d = a.column := by omega
  constructor
  · refine apply_eq_some.mpr ⟨?_, ?_⟩
    · simp only [Defined, hto, ← hc]
      exact inPtrdiff_of_inInt hb
    · simp only [moved, hto, ← hc, wrapInt_of_inInt hb, ← hrow]
  · refine apply_eq_some.mpr ⟨?_, ?_⟩
    · simp only [Defined, hto, hback]
      exact inPtrdiff_of_inInt ha
    · simp only [moved, hto, hback, wrapInt_of_inInt ha, hrow]

theorem threeWay_difference {a b : RowIterator ρ} {d : ℤ} (h : difference b a = some d) :
    threeWay b a = compare d 0 := by
  obtain ⟨_, hc⟩ := difference_eq_some.mp h
  have hlt : a.column + d < a.column ↔ d < 0 := by omega
  have heq : a.column + d = a.column ↔ d = 0 := by omega
  simp only [threeWay, hc, compare, compareOfLessAndEq, hlt, heq]

/-- The iterators of one row keep the laws of random access as far as an `int` reaches. -/
theorem random_access {rows : ρ → Row τ} {row : ρ} {a b : RowIterator ρ} {ms : List Move}
    (ha : Obtained rows row a) (h : moveAll a ms = some b) : RandomAccess a b ms := by
  have haint := obtained_inInt ha
  have hbint := moveAll_inInt haint h
  refine ⟨?_, ?_, fun d hd => threeWay_difference hd, ?_⟩
  · intro ns c hc
    rw [moveAll_net haint h, moveAll_net haint hc, RowIterator.mk.injEq, ← wrapInt_eq_iff]
    exact and_iff_right rfl
  · intro d hd
    exact apply_difference (moveAll_row h) haint hbint hd
  · intro hin hnet
    have hb := congrArg RowIterator.column (moveAll_net haint h)
    rw [wrapInt_of_inInt hin] at hb
    exact difference_eq_some.mpr ⟨hnet, hb⟩

theorem random_access_stepped :
    RandomAccess (last twoColumns 0) (RowIterator.mk 0 1) [.retreat 2, .increment] := by
  have hlast : Obtained twoColumns 0 (last twoColumns 0) := ⟨_, [], Or.inr rfl, rfl⟩
  exact random_access hlast (by decide +kernel)

end SqliteRowIterators
