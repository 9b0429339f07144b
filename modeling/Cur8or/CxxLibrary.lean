import Mathlib.Algebra.Ring.Int.Defs
import Mathlib.Algebra.Ring.Nat
import Mathlib.Data.List.Infix
import Mathlib.Data.Int.Basic
import Mathlib.Data.Nat.Basic
import Mathlib.Order.Basic

/-! The part of the C++ standard library that string-slicing code rests on: wrapping `size_t`,
narrowing to `int`, `std::string_view`, and the two unordered containers up to iteration order.
Exceptions, undefined behaviour and loops without end are all faults; only the first can be
caught. -/
namespace CxxLibrary

abbrev Byte := UInt8
abbrev Bytes := List Byte

/-- The bytes of an ASCII literal. -/
def text (s : String) : Bytes := s.toList.map Char.toUInt8

inductive Fault where
  | outOfRange
  | filesystemError
  | emptyFront
  | pastTheEnd
  | endless
  deriving DecidableEq, Repr

/-- `front()` of an empty list and a dereferenced `end()` throw nothing: they are undefined. -/
def Fault.isException : Fault → Bool
  | .outOfRange | .filesystemError => true
  | .emptyFront | .pastTheEnd | .endless => false

@[simp] theorem ok_bind.{u} {α β : Type u} (a : α) (f : α → Except Fault β) :
    (Except.ok a >>= f) = f a := rfl

@[simp] theorem error_bind.{u} {α β : Type u} (e : Fault) (f : α → Except Fault β) :
    (Except.error e >>= f) = .error e := rfl

def sizeModulus : ℕ := 2 ^ 64
def npos : ℕ := sizeModulus - 1
def sizeAdd (a b : ℕ) : ℕ := (a + b) % sizeModulus
def sizeSub (a b : ℕ) : ℕ := (a + sizeModulus - b) % sizeModulus

def intMax : ℕ := 2 ^ 31 - 1

/-- Conversion of a count to `int`, modular since C++20. -/
def narrowInt (n : ℕ) : ℤ :=
  if n % 2 ^ 32 < 2 ^ 31 then (n % 2 ^ 32 : ℕ) else (n % 2 ^ 32 : ℕ) - 2 ^ 32

theorem narrowInt_of_le {n : ℕ} (h : n ≤ intMax) : narrowInt n = n := by
  unfold intMax at h
  rw [narrowInt, if_pos (by omega)]
  omega

theorem narrowInt_le (n : ℕ) : narrowInt n ≤ n := by
  simp only [narrowInt]
  split <;> omega

theorem narrowInt_le_intMax (n : ℕ) : narrowInt n ≤ intMax := by
  unfold narrowInt intMax
  split <;> omega

theorem narrowInt_intMax_succ : narrowInt (intMax + 1) < 0 := by decide +kernel

/-- A view shorter than `npos`, so that `npos` never names a position in it. -/
structure StringView where
  bytes : Bytes
  size_lt : bytes.length < npos
  deriving DecidableEq

namespace StringView

def size (s : StringView) : ℕ := s.bytes.length

def empty : StringView := ⟨[], by decide⟩

def ofText (s : String) (h : (text s).length < npos := by decide) : StringView := ⟨text s, h⟩

def count (s : StringView) (c : Byte) : ℕ := s.bytes.count c

def find (s : StringView) (c : Byte) (pos : ℕ) : ℕ :=
  if c ∈ s.bytes.drop pos then pos + (s.bytes.drop pos).idxOf c else npos

/-- The first position at which `p` occurs. -/
def occurrence (p : Bytes) : Bytes → Option ℕ
  | [] => if p = [] then some 0 else none
  | c :: l => if p.isPrefixOf (c :: l) then some 0 else (occurrence p l).map (· + 1)

def findText (s : StringView) (p : Bytes) : ℕ := (occurrence p s.bytes).getD npos

def slice (s : StringView) (pos n : ℕ) : StringView :=
  ⟨(s.bytes.drop pos).take n, by
    have := s.size_lt
    simp only [List.length_take, List.length_drop]
    omega⟩

def substr (s : StringView) (pos n : ℕ) : Except Fault StringView :=
  if pos ≤ s.size then .ok (s.slice pos n) else .error .outOfRange

@[simp] theorem slice_bytes (s : StringView) (pos n : ℕ) :
    (s.slice pos n).bytes = (s.bytes.drop pos).take n := rfl

theorem substr_of_le {s : StringView} {pos : ℕ} (h : pos ≤ s.size) (n : ℕ) :
    s.substr pos n = .ok (s.slice pos n) := if_pos h

theorem size_lt_npos (s : StringView) : s.size < npos := s.size_lt

theorem find_of_mem {s : StringView} {c : Byte} {pos : ℕ} (h : c ∈ s.bytes.drop pos) :
    s.find c pos = pos + (s.bytes.drop pos).idxOf c := if_pos h

theorem find_of_notMem {s : StringView} {c : Byte} {pos : ℕ} (h : c ∉ s.bytes.drop pos) :
    s.find c pos = npos := if_neg h

theorem find_lt_size {s : StringView} {c : Byte} {pos : ℕ} (h : c ∈ s.bytes.drop pos) :
    s.find c pos < s.size := by
  have hi := List.idxOf_lt_length_of_mem h
  rw [find_of_mem h]
  simp only [List.length_drop, size] at *
  omega

theorem find_eq_npos_iff {s : StringView} {c : Byte} {pos : ℕ} :
    s.find c pos = npos ↔ c ∉ s.bytes.drop pos := by
  refine ⟨fun h hm => ?_, find_of_notMem⟩
  have hlt := find_lt_size hm
  have := s.size_lt_npos
  omega

theorem occurrence_eq_none_iff {p l : Bytes} : occurrence p l = none ↔ ¬ p <:+: l := by
  induction l with
  | nil => simp [occurrence]
  | cons c l ih =>
    rw [List.infix_cons_iff, ← List.isPrefixOf_iff_prefix, occurrence]
    by_cases hp : p.isPrefixOf (c :: l) = true
    · simp [hp]
    · simp [hp, ih]

theorem occurrence_le {p l : Bytes} {i : ℕ} (h : occurrence p l = some i) : i ≤ l.length := by
  induction l generalizing i with
  | nil =>
    simp only [occurrence] at h
    split at h <;> simp_all
  | cons c l ih =>
    rw [occurrence] at h
    split at h
    · obtain rfl := Option.some.inj h
      exact Nat.zero_le _
    · obtain ⟨j, hj, rfl⟩ := Option.map_eq_some_iff.mp h
      have := ih hj
      simp only [List.length_cons]
      omega

theorem findText_eq_npos_iff {s : StringView} {p : Bytes} :
    s.findText p = npos ↔ ¬ p <:+: s.bytes := by
  rw [← occurrence_eq_none_iff, findText]
  cases h : occurrence p s.bytes with
  | none => simp
  | some i =>
    have hi := occurrence_le h
    have := s.size_lt
    simp only [Option.getD_some, reduceCtorEq, iff_false]
    omega

end StringView

def cutBefore (c : Byte) (l : Bytes) : Bytes := l.take (l.idxOf c)
def cutAfter (c : Byte) (l : Bytes) : Bytes := l.drop (l.idxOf c + 1)

theorem cutBefore_of_notMem {c : Byte} {l : Bytes} (h : c ∉ l) : cutBefore c l = l := by
  rw [cutBefore, List.idxOf_eq_length_iff.mpr h, List.take_length]

theorem cut_append {c : Byte} {a : Bytes} (h : c ∉ a) (b : Bytes) :
    cutBefore c (a ++ c :: b) = a ∧ cutAfter c (a ++ c :: b) = b := by
  have hi : (a ++ c :: b).idxOf c = a.length := by simp [List.idxOf_append, h]
  constructor
  · simp [cutBefore, hi]
  · simp [cutAfter, hi]

theorem cut_of_mem {c : Byte} {l : Bytes} (h : c ∈ l) :
    l = cutBefore c l ++ c :: cutAfter c l ∧ c ∉ cutBefore c l := by
  obtain ⟨a, b, rfl, ha⟩ := List.eq_append_cons_of_mem h
  obtain ⟨h₁, h₂⟩ := cut_append ha b
  rw [h₁, h₂]
  exact ⟨rfl, ha⟩

theorem notMem_cutBefore (c : Byte) (l : Bytes) : c ∉ cutBefore c l := by
  by_cases h : c ∈ l
  · exact (cut_of_mem h).2
  · rwa [cutBefore_of_notMem h]

theorem splitOn_of_mem {c : Byte} {l : Bytes} (h : c ∈ l) :
    l.splitOn c = cutBefore c l :: (cutAfter c l).splitOn c := by
  obtain ⟨hl, hn⟩ := cut_of_mem h
  conv_lhs => rw [hl]
  exact List.splitOn_append_cons_self_of_not_mem hn _

theorem count_of_mem {c : Byte} {l : Bytes} (h : c ∈ l) :
    l.count c = (cutAfter c l).count c + 1 := by
  obtain ⟨hl, hn⟩ := cut_of_mem h
  conv_lhs => rw [hl]
  simp [List.count_eq_zero_of_not_mem hn]

/-- Induction on the text left after each separator. -/
theorem cut_induction {c : Byte} {P : Bytes → Prop} (last : ∀ l, c ∉ l → P l)
    (cut : ∀ l, c ∈ l → P (cutAfter c l) → P l) (l : Bytes) : P l := by
  induction hn : l.length using Nat.strong_induction_on generalizing l with
  | h n ih =>
    by_cases h : c ∈ l
    · have hl := congrArg List.length (cut_of_mem h).1
      simp only [List.length_append, List.length_cons] at hl
      exact cut l h (ih _ (by omega) (cutAfter c l) rfl)
    · exact last l h

theorem length_splitOn (c : Byte) (l : Bytes) : (l.splitOn c).length = l.count c + 1 := by
  induction l using cut_induction (c := c) with
  | last l h =>
    rw [List.splitOn_eq_singleton h, List.count_eq_zero_of_not_mem h]
    rfl
  | cut l h ih => rw [splitOn_of_mem h, List.length_cons, ih, count_of_mem h]

theorem mem_splitOn {c : Byte} {l seg : Bytes} (h : seg ∈ l.splitOn c) :
    c ∉ seg ∧ seg <:+: l := by
  induction l using cut_induction (c := c) with
  | last l hn =>
    rw [List.splitOn_eq_singleton hn, List.mem_singleton] at h
    subst h
    exact ⟨hn, List.infix_rfl⟩
  | cut l hm ih =>
    rw [splitOn_of_mem hm] at h
    rcases List.mem_cons.mp h with rfl | h
    · exact ⟨notMem_cutBefore c l, (List.take_prefix _ _).isInfix⟩
    · obtain ⟨hn, hi⟩ := ih h
      exact ⟨hn, hi.trans (List.drop_suffix _ _).isInfix⟩

theorem cutAfter_of_notMem {c : Byte} {l : Bytes} (h : c ∉ l) : cutAfter c l = [] := by
  rw [cutAfter, List.idxOf_eq_length_iff.mpr h]
  exact List.drop_eq_nil_of_le (by omega)

namespace StringView

theorem substr_before (s : StringView) (c : Byte) :
    ∃ v, s.substr 0 (s.find c 0) = .ok v ∧ v.bytes = cutBefore c s.bytes := by
  refine ⟨_, substr_of_le (Nat.zero_le _) _, ?_⟩
  rw [slice_bytes, List.drop_zero]
  by_cases h : c ∈ s.bytes
  · rw [find_of_mem (by simpa using h), Nat.zero_add, List.drop_zero]
    rfl
  · rw [find_of_notMem (by simpa using h), cutBefore_of_notMem h]
    exact List.take_of_length_le (Nat.le_of_lt s.size_lt)

theorem past_of_mem {s : StringView} {c : Byte} (h : c ∈ s.bytes) :
    sizeAdd (s.find c 0) 1 = s.bytes.idxOf c + 1 := by
  have hm : c ∈ s.bytes.drop 0 := by simpa using h
  have hlt := find_lt_size hm
  have hs := s.size_lt_npos
  rw [find_of_mem hm, List.drop_zero, Nat.zero_add] at *
  simp only [sizeAdd, npos, sizeModulus] at *
  omega

theorem past_of_notMem {s : StringView} {c : Byte} (h : c ∉ s.bytes) :
    sizeAdd (s.find c 0) 1 = 0 := by
  rw [find_of_notMem (by simpa using h)]
  rfl

/-- A missing separator wraps round to the start, one at the last byte ends at the size. -/
theorem past_le_size (s : StringView) (c : Byte) : sizeAdd (s.find c 0) 1 ≤ s.size := by
  by_cases h : c ∈ s.bytes
  · rw [past_of_mem h]
    exact List.idxOf_lt_length_of_mem h
  · rw [past_of_notMem h]
    exact Nat.zero_le _

theorem drop_past {s : StringView} {c : Byte} (h : c ∈ s.bytes) :
    s.bytes.drop (sizeAdd (s.find c 0) 1) = cutAfter c s.bytes := by
  rw [past_of_mem h]
  rfl

/-- Past a separator that is there; a missing one wraps round to the whole view. -/
theorem substr_after (s : StringView) (c : Byte) (n : ℕ) :
    ∃ v, s.substr (sizeAdd (s.find c 0) 1) n = .ok v ∧
      v.bytes = (if c ∈ s.bytes then cutAfter c s.bytes else s.bytes).take n := by
  refine ⟨_, substr_of_le (past_le_size s c) n, ?_⟩
  rw [slice_bytes]
  split
  · next h => rw [drop_past h]
  · next h => rw [past_of_notMem h, List.drop_zero]

theorem find_zero_eq_zero_iff {s : StringView} {c : Byte} :
    s.find c 0 = 0 ↔ s.bytes.head? = some c := by
  unfold find
  cases s.bytes with
  | nil => simp [npos, sizeModulus]
  | cons b l =>
    by_cases hb : b = c
    · simp [hb]
    · by_cases hl : c ∈ l
      · simp [hb, hl]
      · have hc : ¬ c = b := fun e => hb e.symm
        simp [hb, hl, hc, npos, sizeModulus]

end StringView

namespace StringView

variable {s : StringView} {c : Byte} {pos : ℕ}

/-- The length handed to `substr`: wrapped, hence huge, when no separator is left. -/
theorem delim_eq (hpos : pos ≤ s.size) : sizeSub (s.find c pos) pos =
    if c ∈ s.bytes.drop pos then (s.bytes.drop pos).idxOf c else npos - pos := by
  have hs := s.size_lt_npos
  split
  · next h =>
    have hlt := find_lt_size h
    rw [find_of_mem h] at hlt ⊢
    simp only [sizeSub, npos, sizeModulus] at *
    omega
  · next h =>
    rw [find_of_notMem h]
    simp only [sizeSub, npos, sizeModulus] at *
    omega

theorem slice_delim (hpos : pos ≤ s.size) :
    (s.slice pos (sizeSub (s.find c pos) pos)).bytes = cutBefore c (s.bytes.drop pos) := by
  rw [slice_bytes, delim_eq hpos]
  split
  · rfl
  · next h =>
    rw [cutBefore_of_notMem h]
    apply List.take_of_length_le
    have := s.size_lt_npos
    simp only [List.length_drop, size] at *
    omega

theorem next_of_mem (h : c ∈ s.bytes.drop pos) (hpos : pos ≤ s.size) :
    let next := sizeAdd pos (sizeAdd (sizeSub (s.find c pos) pos) 1)
    next ≤ s.size ∧ pos < next ∧ s.bytes.drop next = cutAfter c (s.bytes.drop pos) := by
  have hs := s.size_lt_npos
  have hlt := find_lt_size h
  rw [find_of_mem h] at hlt
  have hn : sizeAdd pos (sizeAdd (sizeSub (s.find c pos) pos) 1) =
      pos + ((s.bytes.drop pos).idxOf c + 1) := by
    rw [delim_eq hpos, if_pos h]
    simp only [sizeAdd, npos, sizeModulus] at *
    omega
  simp only [hn]
  refine ⟨by omega, by omega, ?_⟩
  rw [cutAfter, List.drop_drop]

/-- Only the last segment sends the position back to the start. -/
theorem next_of_notMem (h : c ∉ s.bytes.drop pos) (hpos : pos ≤ s.size) :
    sizeAdd pos (sizeAdd (sizeSub (s.find c pos) pos) 1) = 0 := by
  have hs := s.size_lt_npos
  rw [delim_eq hpos, if_neg h]
  simp only [sizeAdd, npos, sizeModulus] at *
  omega

/-- Every pass but the last finds a separator, so the next one starts inside the view. -/
theorem next_pass {n : ℕ} (hpos : pos ≤ s.size) (hn : n + 1 ≤ (s.bytes.drop pos).count c + 1) :
    let next := sizeAdd pos (sizeAdd (sizeSub (s.find c pos) pos) 1)
    next ≤ s.size ∧ (c ∉ s.bytes.drop pos → n = 0) ∧ n ≤ (s.bytes.drop next).count c + 1 := by
  by_cases h : c ∈ s.bytes.drop pos
  · obtain ⟨hle, _, hdrop⟩ := next_of_mem h hpos
    rw [count_of_mem h] at hn
    refine ⟨hle, fun hc => absurd h hc, ?_⟩
    rw [hdrop]
    omega
  · rw [List.count_eq_zero_of_not_mem h] at hn
    rw [next_of_notMem h hpos]
    exact ⟨Nat.zero_le _, fun _ => by omega, by omega⟩

end StringView

/-- `std::unordered_map`; the order of the entries is not observable. -/
structure UnorderedMap (α β : Type*) where
  entries : List (α × β)
  nodup : (entries.map Prod.fst).Nodup

namespace UnorderedMap

variable {α β : Type*} [DecidableEq α]

def empty : UnorderedMap α β := ⟨[], List.nodup_nil⟩

def find? (m : UnorderedMap α β) (k : α) : Option β :=
  (m.entries.find? (fun e => e.1 = k)).map Prod.snd

def contains (m : UnorderedMap α β) (k : α) : Bool := (m.find? k).isSome

def at? (m : UnorderedMap α β) (k : α) : Except Fault β :=
  match m.find? k with
  | some v => .ok v
  | none => .error .outOfRange

theorem find?_eq_none_iff {m : UnorderedMap α β} {k : α} :
    m.find? k = none ↔ k ∉ m.entries.map Prod.fst := by
  simp only [find?, Option.map_eq_none_iff, List.find?_eq_none, decide_eq_true_eq, List.mem_map,
    not_exists, not_and]

theorem mem_of_find? {m : UnorderedMap α β} {k : α} {v : β} (h : m.find? k = some v) :
    (k, v) ∈ m.entries := by
  obtain ⟨⟨j, w⟩, he, rfl⟩ := Option.map_eq_some_iff.mp h
  have hj : j = k := by simpa using List.find?_some he
  exact hj ▸ List.mem_of_find?_eq_some he

/-- `emplace` leaves the map alone when the key is taken. -/
def emplace (m : UnorderedMap α β) (k : α) (v : β) : UnorderedMap α β :=
  if h : k ∈ m.entries.map Prod.fst then m
  else ⟨m.entries ++ [(k, v)], by
    rw [List.map_append, List.nodup_append]
    refine ⟨m.nodup, by simp, ?_⟩
    rintro a ha b hb rfl
    simp only [List.map_cons, List.map_nil, List.mem_singleton] at hb
    exact h (hb ▸ ha)⟩

theorem find?_emplace (m : UnorderedMap α β) (k j : α) (v : β) :
    (m.emplace k v).find? j = if j = k then some ((m.find? k).getD v) else m.find? j := by
  simp only [emplace]
  split
  · next h =>
    have hs : m.find? k ≠ none := fun hn => (find?_eq_none_iff.mp hn) h
    obtain ⟨w, hw⟩ := Option.ne_none_iff_exists'.mp hs
    split
    · next hj => rw [hj, hw, Option.getD_some]
    · rfl
  · next h =>
    have hn := find?_eq_none_iff.mpr h
    by_cases hj : j = k
    · subst j
      have hf : m.entries.find? (fun e => e.1 = k) = none := by
        simpa [find?] using hn
      simp [find?, List.find?_append, hf]
    · have hk : ¬ k = j := fun e => hj e.symm
      simp [find?, List.find?_append, hj, hk]

theorem at?_eq_ok_iff {m : UnorderedMap α β} {k : α} {v : β} :
    m.at? k = .ok v ↔ m.find? k = some v := by
  unfold at?
  cases m.find? k <;> simp

end UnorderedMap

/-- `unordered_multimap::find`: any of the entries with an equal key may be the one found. -/
structure MultimapFind (α β : Type*) where
  find : List (α × β) → α → Option (α × β)
  found : ∀ {m k e}, find m k = some e → e ∈ m ∧ e.1 = k
  missing : ∀ {m k}, find m k = none → ∀ e ∈ m, e.1 ≠ k

namespace MultimapFind

variable {α β : Type*}

/-- The container that happens to keep equal keys in insertion order. -/
def first [DecidableEq α] : MultimapFind α β where
  find m k := m.find? (fun e => e.1 = k)
  found h := ⟨List.mem_of_find?_eq_some h, by simpa using List.find?_some h⟩
  missing h := by simpa using h

theorem eq_of_unique (f : MultimapFind α β) {m : List (α × β)} {e : α × β} (he : e ∈ m)
    (hu : ∀ d ∈ m, d.1 = e.1 → d = e) : f.find m e.1 = some e := by
  cases h : f.find m e.1 with
  | none => exact absurd rfl (f.missing h e he)
  | some d =>
    obtain ⟨hm, hk⟩ := f.found h
    rw [hu d hm hk]

end MultimapFind

end CxxLibrary
