import Mathlib.Data.List.Induction
import Mathlib.Data.List.Nodup
import Mathlib.Logic.Function.Iterate
import Mathlib.Order.Basic

/-! Reference counting as `std::shared_ptr` does it. An object may keep one other object alive; the
last release destroys it and then releases what it kept. -/
namespace SharedOwnership

variable {α : Type*}

structure Cell (α : Type*) where
  content : α
  uses : ℕ
  guard : Option ℕ
  deriving DecidableEq

/-- A live object that keeps `i` alive. -/
def Cell.counts (i : ℕ) (c : Cell α) : Bool := decide (0 < c.uses ∧ c.guard = some i)

/-- Objects in the order of their construction, and the destroyed ones in that of their end. -/
structure Heap (α : Type*) where
  cells : List (Cell α)
  destroyed : List ℕ
  deriving DecidableEq

namespace Heap

def empty : Heap α := ⟨[], []⟩

def uses (h : Heap α) (i : ℕ) : ℕ := (h.cells[i]?.map Cell.uses).getD 0

def fixed (h : Heap α) (i : ℕ) : Option (α × Option ℕ) :=
  h.cells[i]?.map fun c => (c.content, c.guard)

def Guards (h : Heap α) (j i : ℕ) : Prop := ∃ a, h.fixed j = some (a, some i)

def guardians (h : Heap α) (i : ℕ) : ℕ := h.cells.countP (Cell.counts i)

def live (h : Heap α) : ℕ := h.cells.countP fun c => decide (0 < c.uses)

def setUses (h : Heap α) (i n : ℕ) : Heap α :=
  { h with cells := h.cells.modify i fun c => { c with uses := n } }

def destroy (h : Heap α) (i : ℕ) : Heap α :=
  { h.setUses i 0 with destroyed := h.destroyed ++ [i] }

/-- Construction by `make_shared`; the reference to the guard was taken before. -/
def make (h : Heap α) (content : α) (guard : Option ℕ) : Heap α :=
  { h with cells := h.cells ++ [⟨content, 1, guard⟩] }

def retain (h : Heap α) (i : ℕ) : Heap α := h.setUses i (h.uses i + 1)

theorem cell_of_uses {h : Heap α} {i : ℕ} (hi : 0 < h.uses i) :
    ∃ c, h.cells[i]? = some c ∧ c.uses = h.uses i := by
  cases hc : h.cells[i]? with
  | none => simp [uses, hc] at hi
  | some c => exact ⟨c, rfl, by simp [uses, hc]⟩

theorem countP_setUses (p : Cell α → Bool) {h : Heap α} {i : ℕ} {c : Cell α}
    (hc : h.cells[i]? = some c) (n : ℕ) :
    (h.setUses i n).cells.countP p + (if p c then 1 else 0) =
      h.cells.countP p + if p { c with uses := n } then 1 else 0 := by
  obtain ⟨hlt, hget⟩ := List.getElem?_eq_some_iff.mp hc
  obtain ⟨l₁, a, l₂, hcells, hlen, hmodify⟩ :=
    List.exists_of_modify (fun c : Cell α => { c with uses := n }) hlt
  obtain rfl : a = c := by
    rw [hcells, ← hlen] at hc
    simpa using hc
  rw [setUses, hmodify, hcells]
  simp only [List.countP_append, List.countP_cons]
  omega

theorem live_destroy {h : Heap α} {i : ℕ} (hi : 0 < h.uses i) : (h.destroy i).live < h.live := by
  obtain ⟨c, hc, hu⟩ := cell_of_uses hi
  have hcount := countP_setUses (fun c => decide (0 < c.uses)) hc 0
  have hpos : 0 < c.uses := hu ▸ hi
  simp only [hpos, decide_true, if_true, Nat.lt_irrefl, decide_false, Bool.false_eq_true,
    if_false] at hcount
  simp only [live, destroy]
  omega

/-- `~shared_ptr`. -/
def release (h : Heap α) (i : ℕ) : Heap α :=
  if hi : h.uses i = 1 then
    match h.fixed i with
    | some (_, some g) => release (h.destroy i) g
    | _ => h.destroy i
  else h.setUses i (h.uses i - 1)
termination_by h.live
decreasing_by exact live_destroy (hi ▸ Nat.one_pos)

@[simp] theorem length_setUses (h : Heap α) (i n : ℕ) :
    (h.setUses i n).cells.length = h.cells.length := List.length_modify _ _ _

@[simp] theorem destroyed_setUses (h : Heap α) (i n : ℕ) :
    (h.setUses i n).destroyed = h.destroyed := rfl

@[simp] theorem fixed_setUses (h : Heap α) (i n j : ℕ) : (h.setUses i n).fixed j = h.fixed j := by
  simp only [fixed, setUses, List.getElem?_modify]
  cases h.cells[j]? with
  | none => rfl
  | some c =>
    by_cases hij : i = j
    · simp [hij]
    · simp [hij]

theorem fixed_destroy (h : Heap α) (i j : ℕ) : (h.destroy i).fixed j = h.fixed j :=
  fixed_setUses h i 0 j

theorem uses_setUses_ne (h : Heap α) {i j : ℕ} (hij : i ≠ j) (n : ℕ) :
    (h.setUses i n).uses j = h.uses j := by
  rw [uses, setUses, List.getElem?_modify_ne _ _ hij, ← uses]

theorem uses_setUses_eq {h : Heap α} {i : ℕ} (hi : i < h.cells.length) (n : ℕ) :
    (h.setUses i n).uses i = n := by
  rw [uses, setUses, List.getElem?_modify_eq, List.getElem?_eq_getElem hi]
  rfl

theorem lt_length_of_uses {h : Heap α} {i : ℕ} (hi : 0 < h.uses i) : i < h.cells.length := by
  obtain ⟨c, hc, _⟩ := cell_of_uses hi
  exact (List.getElem?_eq_some_iff.mp hc).1

theorem fixed_lt_length {h : Heap α} {i : ℕ} {x} (hi : h.fixed i = some x) :
    i < h.cells.length := by
  by_contra hlt
  rw [fixed, List.getElem?_eq_none (Nat.not_lt.mp hlt)] at hi
  cases hi

theorem uses_destroy {h : Heap α} {i : ℕ} (hi : i < h.cells.length) (j : ℕ) :
    (h.destroy i).uses j = if i = j then 0 else h.uses j := by
  by_cases hij : i = j
  · rw [if_pos hij, ← hij]
    exact uses_setUses_eq hi 0
  · rw [if_neg hij]
    exact uses_setUses_ne h hij 0

theorem guardians_setUses_pos {h : Heap α} {i n : ℕ} (hi : 0 < h.uses i) (hn : 0 < n) (k : ℕ) :
    (h.setUses i n).guardians k = h.guardians k := by
  obtain ⟨c, hc, hu⟩ := cell_of_uses hi
  have hcount := countP_setUses (Cell.counts k) hc n
  have hsame : Cell.counts k { c with uses := n } = Cell.counts k c := by
    simp [Cell.counts, hn, hu, hi]
  rw [hsame] at hcount
  exact Nat.add_right_cancel hcount

theorem guardians_destroy {h : Heap α} {i : ℕ} {a : α} {g : Option ℕ} (hi : 0 < h.uses i)
    (hf : h.fixed i = some (a, g)) (k : ℕ) :
    (h.destroy i).guardians k + (if g = some k then 1 else 0) = h.guardians k := by
  obtain ⟨c, hc, hu⟩ := cell_of_uses hi
  have hcount := countP_setUses (Cell.counts k) hc 0
  have hg : c.guard = g := by
    rw [fixed, hc] at hf
    exact congrArg Prod.snd (Option.some.inj hf)
  simp only [Cell.counts, hu, hi, hg, true_and, Nat.lt_irrefl, false_and, decide_false,
    Bool.false_eq_true, if_false, decide_eq_true_eq, Nat.add_zero] at hcount
  exact hcount

theorem guardians_eq_zero_iff {h : Heap α} {i : ℕ} :
    h.guardians i = 0 ↔ ∀ j, h.Guards j i → h.uses j = 0 := by
  simp only [guardians, List.countP_eq_zero, Cell.counts, decide_eq_true_eq, not_and, Guards,
    fixed, uses]
  constructor
  · intro hall j ⟨a, hj⟩
    cases hc : h.cells[j]? with
    | none => rfl
    | some c =>
      rw [hc] at hj
      have hguard : c.guard = some i := congrArg Prod.snd (Option.some.inj hj)
      have hnot := fun hpos => hall c (List.mem_of_getElem? hc) hpos hguard
      exact Nat.eq_zero_of_not_pos hnot
  · intro hall c hmem hpos hguard
    obtain ⟨j, hc⟩ := List.mem_iff_getElem?.mp hmem
    have hzero := hall j ⟨c.content, by rw [hc, ← hguard]; rfl⟩
    rw [hc] at hzero
    exact absurd hzero (Nat.ne_of_gt hpos)

theorem countP_eq_length_filter_range {β : Type*} (p : β → Bool) (l : List β) :
    l.countP p = ((List.range l.length).filter fun j => (l[j]?.map p).getD false).length := by
  induction l using List.reverseRecOn with
  | nil => rfl
  | append_singleton l b ih =>
    rw [List.countP_append, ih, List.length_append, List.length_singleton, List.range_succ,
      List.filter_append, List.length_append]
    congr 1
    · apply congrArg List.length
      apply List.filter_congr
      intro j hj
      rw [List.getElem?_append_left (List.mem_range.mp hj)]
    · cases hb : p b with
      | true => simp [hb]
      | false => simp [hb]

theorem guardians_eq_length {h : Heap α} {i : ℕ} {l : List ℕ} (hn : l.Nodup)
    (hl : ∀ j, j ∈ l ↔ 0 < h.uses j ∧ h.Guards j i) : h.guardians i = l.length := by
  rw [guardians, countP_eq_length_filter_range]
  apply List.Perm.length_eq
  apply (List.perm_ext_iff_of_nodup (List.nodup_range.filter _) hn).mpr
  intro j
  rw [List.mem_filter, List.mem_range, hl, uses, Guards, fixed]
  cases hc : h.cells[j]? with
  | none => simp
  | some c =>
    have hlt := (List.getElem?_eq_some_iff.mp hc).1
    simp [hlt, Cell.counts]

theorem cells_make (h : Heap α) (content : α) (guard : Option ℕ) (j : ℕ) :
    (h.make content guard).cells[j]? =
      if j = h.cells.length then some ⟨content, 1, guard⟩ else h.cells[j]? := by
  rw [make, List.getElem?_append]
  by_cases hlt : j < h.cells.length
  · rw [if_pos hlt, if_neg (Nat.ne_of_lt hlt)]
  · rw [if_neg hlt]
    by_cases hj : j = h.cells.length
    · rw [if_pos hj, hj, Nat.sub_self]
      rfl
    · rw [if_neg hj, List.getElem?_eq_none (Nat.not_lt.mp hlt)]
      exact List.getElem?_eq_none (by rw [List.length_singleton]; omega)

theorem fixed_make (h : Heap α) (content : α) (guard : Option ℕ) (j : ℕ) :
    (h.make content guard).fixed j =
      if j = h.cells.length then some (content, guard) else h.fixed j := by
  rw [fixed, cells_make]
  split
  · rfl
  · rfl

theorem uses_make (h : Heap α) (content : α) (guard : Option ℕ) (j : ℕ) :
    (h.make content guard).uses j = if j = h.cells.length then 1 else h.uses j := by
  rw [uses, cells_make]
  split
  · rfl
  · rfl

theorem guardians_make (h : Heap α) (content : α) (guard : Option ℕ) (k : ℕ) :
    (h.make content guard).guardians k = h.guardians k + if guard = some k then 1 else 0 := by
  rw [guardians, make, List.countP_append, ← guardians]
  simp [Cell.counts]

theorem guards_make {h : Heap α} {content : α} {guard : Option ℕ} {j i : ℕ}
    (hg : (h.make content guard).Guards j i) :
    (j = h.cells.length ∧ guard = some i) ∨ h.Guards j i := by
  obtain ⟨a, hj⟩ := hg
  rw [fixed_make] at hj
  split at hj
  · next hlen => exact Or.inl ⟨hlen, congrArg Prod.snd (Option.some.inj hj)⟩
  · exact Or.inr ⟨a, hj⟩

theorem count_toList (g : Option ℕ) (i : ℕ) : g.toList.count i = if g = some i then 1 else 0 := by
  cases g with
  | none => rfl
  | some g => simp [List.count_singleton]

/-- `roots` are the references held from outside, with multiplicity. -/
structure Sound (h : Heap α) (roots : List ℕ) : Prop where
  counted : ∀ i, h.uses i = roots.count i + h.guardians i
  older : ∀ j i, h.Guards j i → i < j
  nodup : h.destroyed.Nodup
  ended : ∀ i, i ∈ h.destroyed ↔ i < h.cells.length ∧ h.uses i = 0
  ordered : ∀ a i b, h.destroyed = a ++ i :: b → ∀ j, h.Guards j i → j ∈ a

namespace Sound

variable {h : Heap α} {roots : List ℕ}

theorem initial : Sound (empty : Heap α) [] where
  counted _ := rfl
  older _ _ := fun ⟨_, hj⟩ => by cases hj
  nodup := List.nodup_nil
  ended i := by simp [empty]
  ordered a i b hs := by simp [empty] at hs

theorem perm {roots' : List ℕ} (hs : Sound h roots) (hp : roots.Perm roots') :
    Sound h roots' := by
  refine ⟨fun i => ?_, hs.older, hs.nodup, hs.ended, hs.ordered⟩
  rw [← hp.count_eq]
  exact hs.counted i

theorem uses_pos (hs : Sound h roots) {i : ℕ} (hi : i ∈ roots) : 0 < h.uses i := by
  rw [hs.counted]
  exact Nat.add_pos_left (List.count_pos_iff.mpr hi) _

theorem notMem_destroyed (hs : Sound h roots) {i : ℕ} (hi : 0 < h.uses i) :
    i ∉ h.destroyed := fun hd => Nat.ne_of_gt hi ((hs.ended i).mp hd).2

theorem setUses {roots' : List ℕ} (hs : Sound h roots) {i n : ℕ} (hi : 0 < h.uses i) (hn : 0 < n)
    (hself : n + roots.count i = roots'.count i + h.uses i)
    (hother : ∀ j, i ≠ j → roots'.count j = roots.count j) : Sound (h.setUses i n) roots' := by
  have hlen := lt_length_of_uses hi
  constructor
  · intro j
    have hc := hs.counted j
    rw [guardians_setUses_pos hi hn]
    by_cases hij : i = j
    · subst hij
      rw [uses_setUses_eq hlen]
      omega
    · rw [uses_setUses_ne h hij, hother j hij]
      exact hc
  · intro j k hg
    exact hs.older j k (by simpa [Guards] using hg)
  · exact hs.nodup
  · intro j
    rw [length_setUses, destroyed_setUses, hs.ended]
    by_cases hij : i = j
    · subst hij
      rw [uses_setUses_eq hlen]
      omega
    · rw [uses_setUses_ne h hij]
  · intro a k b hd j hg
    exact hs.ordered a k b hd j (by simpa [Guards] using hg)

theorem retain (hs : Sound h roots) {i : ℕ} (hi : 0 < h.uses i) :
    Sound (h.retain i) (i :: roots) := by
  apply hs.setUses hi (Nat.succ_pos _)
  · rw [List.count_cons_self]
    omega
  · intro j hij
    exact List.count_cons_of_ne hij

theorem make (content : α) {guard : Option ℕ} (hs : Sound h (guard.toList ++ roots)) :
    Sound (h.make content guard) (h.cells.length :: roots) := by
  have hguard : ∀ i, guard = some i → 0 < h.uses i := by
    intro i hi
    exact hs.uses_pos (List.mem_append_left _ (by simp [hi]))
  have hnew : h.uses h.cells.length = 0 := by
    rw [uses, List.getElem?_eq_none (Nat.le_refl _)]
    rfl
  constructor
  · intro i
    have hc := hs.counted i
    rw [List.count_append, count_toList] at hc
    rw [uses_make, guardians_make, List.count_cons]
    by_cases hi : i = h.cells.length
    · subst hi
      rw [hnew] at hc
      simp only [if_true, beq_self_eq_true]
      omega
    · rw [if_neg hi, if_neg (fun e => hi (beq_iff_eq.mp e).symm)]
      omega
  · intro j i hg
    rcases guards_make hg with ⟨rfl, hnew⟩ | hold
    · exact lt_length_of_uses (hguard i hnew)
    · exact hs.older j i hold
  · exact hs.nodup
  · intro i
    rw [uses_make]
    show i ∈ h.destroyed ↔ i < (h.cells ++ [_]).length ∧ _
    rw [hs.ended, List.length_append, List.length_singleton]
    by_cases hi : i = h.cells.length
    · rw [if_pos hi]
      omega
    · rw [if_neg hi]
      omega
  · intro a i b hd j hg
    rcases guards_make hg with ⟨_, hnew⟩ | hold
    · have hmem : i ∈ h.destroyed := by
        change i ∈ (h.make content guard).destroyed
        rw [hd]
        exact List.mem_append_right _ List.mem_cons_self
      exact absurd hmem (hs.notMem_destroyed (hguard i hnew))
    · exact hs.ordered a i b hd j hold

/-- The last reference goes: nothing live is guarded by the object any more, and the reference it
held becomes one from outside. -/
theorem destroy {i : ℕ} (hs : Sound h (i :: roots)) (hi : h.uses i = 1) {a : α} {g : Option ℕ}
    (hf : h.fixed i = some (a, g)) : Sound (h.destroy i) (g.toList ++ roots) := by
  have hpos : 0 < h.uses i := hi ▸ Nat.one_pos
  have hlen := lt_length_of_uses hpos
  have hguardians := guardians_destroy hpos hf
  have hlast : roots.count i = 0 ∧ h.guardians i = 0 := by
    have hc := hs.counted i
    rw [List.count_cons_self, hi] at hc
    omega
  have hfixed : ∀ j k, (h.destroy i).Guards j k ↔ h.Guards j k := by
    intro j k
    simp only [Guards, fixed_destroy]
  have huses := uses_destroy hlen
  constructor
  · intro j
    have hc := hs.counted j
    have hk := hguardians j
    rw [huses, List.count_append, count_toList]
    by_cases hij : i = j
    · subst hij
      have hself : g ≠ some i := fun hg => Nat.lt_irrefl i (hs.older i i ⟨a, hg ▸ hf⟩)
      rw [if_neg hself] at hk ⊢
      rw [if_pos rfl]
      omega
    · rw [List.count_cons_of_ne hij] at hc
      rw [if_neg hij]
      omega
  · intro j k hg
    exact hs.older j k ((hfixed j k).mp hg)
  · exact List.nodup_append'.mpr ⟨hs.nodup, List.nodup_singleton i,
      List.disjoint_singleton.mpr (hs.notMem_destroyed hpos)⟩
  · intro j
    rw [huses]
    show j ∈ h.destroyed ++ [i] ↔ j < (h.setUses i 0).cells.length ∧ _
    rw [List.mem_append, List.mem_singleton, hs.ended, length_setUses]
    by_cases hij : i = j
    · rw [if_pos hij, ← hij]
      simp [hlen]
    · rw [if_neg hij]
      simp [Ne.symm hij]
  · intro x k y hd j hg
    have hg := (hfixed j k).mp hg
    have hd : h.destroyed ++ [i] = x ++ k :: y := hd
    -- the one new split is the one at the end, where the count says that no guardian lives
    rcases List.eq_nil_or_concat y with rfl | ⟨y', e, rfl⟩
    · obtain ⟨rfl, hik⟩ := List.append_inj' hd rfl
      obtain rfl := List.singleton_inj.mp hik
      have hzero := guardians_eq_zero_iff.mp hlast.2 j hg
      obtain ⟨_, hj⟩ := hg
      exact (hs.ended j).mpr ⟨fixed_lt_length hj, hzero⟩
    · rw [List.concat_eq_append, ← List.cons_append, ← List.append_assoc] at hd
      exact hs.ordered x k y' (List.append_inj' hd rfl).1 j hg

theorem release {i : ℕ} (hs : Sound h (i :: roots)) : Sound (h.release i) roots := by
  have hpos := hs.uses_pos List.mem_cons_self
  -- along the chain of guards: each destroyed object leaves its reference as one from outside
  fun_induction Heap.release h i with
  | case1 h i hi a g hf ih =>
    have hd := hs.destroy hi hf
    exact ih hd (hd.uses_pos List.mem_cons_self)
  | case2 h i hi hnone =>
    obtain ⟨c, hc, _⟩ := cell_of_uses hpos
    have hf : h.fixed i = some (c.content, c.guard) := by
      rw [fixed, hc]
      rfl
    cases hg : c.guard with
    | none => exact hs.destroy hi (hg ▸ hf)
    | some g => exact absurd (hg ▸ hf) (hnone c.content g)
  | case3 h i hi =>
    apply hs.setUses hpos (by omega)
    · rw [List.count_cons_self]
      omega
    · intro j hij
      exact (List.count_cons_of_ne hij).symm

/-- Without references from outside nothing is left: the youngest live object would need a
younger guardian. -/
theorem uses_eq_zero (hs : Sound h []) (i : ℕ) : h.uses i = 0 := by
  obtain ⟨n, hn⟩ : ∃ n, n = h.cells.length - i := ⟨_, rfl⟩
  induction n using Nat.strongRecOn generalizing i with
  | ind n ih =>
    have hguardians : h.guardians i = 0 := by
      rw [guardians_eq_zero_iff]
      intro j hj
      have hlt := hs.older j i hj
      obtain ⟨_, hf⟩ := hj
      have hlen := fixed_lt_length hf
      exact ih _ (by omega) j rfl
    rw [hs.counted, hguardians]
    rfl

theorem mem_destroyed_of_quiescent (hs : Sound h []) {i : ℕ} {x} (hi : h.fixed i = some x) :
    i ∈ h.destroyed := (hs.ended i).mpr ⟨fixed_lt_length hi, hs.uses_eq_zero i⟩

end Sound

@[simp] theorem fixed_release (h : Heap α) (i j : ℕ) : (h.release i).fixed j = h.fixed j := by
  fun_induction release h i with
  | case1 h i hi a g hf ih => rw [ih, fixed_destroy]
  | case2 h i hi hnone => exact fixed_destroy h i j
  | case3 h i hi => exact fixed_setUses h i _ j

theorem destroyed_grows (h : Heap α) (i : ℕ) : h.destroyed <+: (h.release i).destroyed := by
  fun_induction release h i with
  | case1 h i hi a g hf ih => exact (List.prefix_append _ _).trans ih
  | case2 h i hi hnone => exact List.prefix_append _ _
  | case3 h i hi => exact List.prefix_refl _

def expired (h : Heap α) (i : ℕ) : List ℕ := (h.release i).destroyed.drop h.destroyed.length

theorem destroyed_release (h : Heap α) (i : ℕ) :
    (h.release i).destroyed = h.destroyed ++ h.expired i :=
  (List.prefix_iff_eq_append.mp (destroyed_grows h i)).symm

end Heap

/-- `misused` is set by a call on an object that is gone. -/
structure Memory (α : Type*) where
  heap : Heap α
  misused : Bool
  deriving DecidableEq

namespace Memory

def empty : Memory α := ⟨.empty, false⟩

def call (m : Memory α) (i : ℕ) : Memory α :=
  { m with misused := m.misused || decide (m.heap.uses i = 0) }

def retain (m : Memory α) (i : ℕ) : Memory α := { m with heap := m.heap.retain i }

def release (m : Memory α) (i : ℕ) : Memory α := { m with heap := m.heap.release i }

def make (m : Memory α) (content : α) (guard : Option ℕ) : Memory α :=
  { m with heap := m.heap.make content guard }

def sharedFromThis (m : Memory α) (i : ℕ) : Memory α := (m.call i).retain i

def retains (m : Memory α) (i : ℕ) : ℕ → Memory α
  | 0 => m
  | n + 1 => (m.retains i n).retain i

def releases (m : Memory α) (i : ℕ) : ℕ → Memory α
  | 0 => m
  | n + 1 => (m.release i).releases i n

@[simp] theorem fixed_call (m : Memory α) (i j : ℕ) :
    (m.call i).heap.fixed j = m.heap.fixed j := rfl

@[simp] theorem fixed_retain (m : Memory α) (i j : ℕ) :
    (m.retain i).heap.fixed j = m.heap.fixed j := Heap.fixed_setUses _ _ _ _

@[simp] theorem fixed_release (m : Memory α) (i j : ℕ) :
    (m.release i).heap.fixed j = m.heap.fixed j := Heap.fixed_release _ _ _

@[simp] theorem fixed_sharedFromThis (m : Memory α) (i j : ℕ) :
    (m.sharedFromThis i).heap.fixed j = m.heap.fixed j := fixed_retain _ _ _

@[simp] theorem fixed_retains (m : Memory α) (i n j : ℕ) :
    (m.retains i n).heap.fixed j = m.heap.fixed j := by
  induction n with
  | zero => rfl
  | succ n ih => exact (fixed_retain _ _ _).trans ih

@[simp] theorem fixed_releases (m : Memory α) (i n j : ℕ) :
    (m.releases i n).heap.fixed j = m.heap.fixed j := by
  induction n generalizing m with
  | zero => rfl
  | succ n ih => exact (ih _).trans (fixed_release _ _ _)

/-- Nothing that was made changes, and what is new is one object of the kind `x`, if any. -/
structure Grows (x : α × Option ℕ) (m m' : Memory α) : Prop where
  kept : ∀ j y, m.heap.fixed j = some y → m'.heap.fixed j = some y
  made : ∀ j y, m'.heap.fixed j = some y →
    m.heap.fixed j = some y ∨ (j = m.heap.cells.length ∧ y = x)

section Growth

variable {m m' : Memory α} {x : α × Option ℕ}

theorem Grows.of_fixed (h : ∀ j, m'.heap.fixed j = m.heap.fixed j) : Grows x m m' where
  kept j _ hj := (h j).trans hj
  made j _ hj := .inl ((h j).symm.trans hj)

theorem Grows.of_make (h : ∀ j, m'.heap.fixed j = (m.heap.make x.1 x.2).fixed j) :
    Grows x m m' where
  kept j y hj := by
    rw [h, Heap.fixed_make, if_neg (Nat.ne_of_lt (Heap.fixed_lt_length hj))]
    exact hj
  made j y hj := by
    rw [h, Heap.fixed_make] at hj
    split at hj
    · next hlen => exact .inr ⟨hlen, (Option.some.inj hj).symm⟩
    · exact .inl hj

theorem fixed_iterate {f : Memory α → Memory α} {j : ℕ}
    (hf : ∀ m, (f m).heap.fixed j = m.heap.fixed j) (n : ℕ) :
    (f^[n] m).heap.fixed j = m.heap.fixed j := by
  induction n generalizing m with
  | zero => rfl
  | succ n ih => exact ih.trans (hf m)

end Growth

/-- Nothing has been misused, and every reference is accounted for. -/
structure Sound (m : Memory α) (roots : List ℕ) : Prop where
  heap : m.heap.Sound roots
  unmisused : m.misused = false

namespace Sound

variable {m : Memory α} {roots : List ℕ} {i : ℕ}

theorem initial : Sound (empty : Memory α) [] := ⟨.initial, rfl⟩

theorem perm {roots' : List ℕ} (hs : Sound m roots) (hp : roots.Perm roots') : Sound m roots' :=
  ⟨hs.heap.perm hp, hs.unmisused⟩

theorem call (hs : Sound m roots) (hi : i ∈ roots) : Sound (m.call i) roots := by
  refine ⟨hs.heap, ?_⟩
  have hpos := hs.heap.uses_pos hi
  simp [Memory.call, hs.unmisused, Nat.ne_of_gt hpos]

theorem retain (hs : Sound m roots) (hi : i ∈ roots) : Sound (m.retain i) (i :: roots) :=
  ⟨hs.heap.retain (hs.heap.uses_pos hi), hs.unmisused⟩

theorem sharedFromThis (hs : Sound m roots) (hi : i ∈ roots) :
    Sound (m.sharedFromThis i) (i :: roots) := (hs.call hi).retain hi

theorem release (hs : Sound m (i :: roots)) : Sound (m.release i) roots :=
  ⟨hs.heap.release, hs.unmisused⟩

theorem make (content : α) (guard : Option ℕ) (hs : Sound m (guard.toList ++ roots)) :
    Sound (m.make content guard) (m.heap.cells.length :: roots) :=
  ⟨hs.heap.make content, hs.unmisused⟩

theorem retains (hs : Sound m roots) (hi : i ∈ roots) (n : ℕ) :
    Sound (m.retains i n) (List.replicate n i ++ roots) := by
  induction n with
  | zero => exact hs
  | succ n ih => exact ih.retain (List.mem_append_right _ hi)

theorem releases {n : ℕ} (hs : Sound m (List.replicate n i ++ roots)) :
    Sound (m.releases i n) roots := by
  induction n generalizing m with
  | zero => exact hs
  | succ n ih => exact ih hs.release

end Sound

end Memory

theorem flatten_zipWith_modify {α β γ : Type*} (g : α → β → List γ) {l : List α} {k : List β}
    {i : ℕ} {a : α} {b : β} (ha : l[i]? = some a) (hb : k[i]? = some b) :
    ∃ rest, (List.zipWith g l k).flatten.Perm (g a b ++ rest) ∧
      ∀ f, (List.zipWith g (l.modify i f) k).flatten.Perm (g (f a) b ++ rest) := by
  induction l generalizing k i with
  | nil => cases ha
  | cons x l ih =>
    cases k with
    | nil => cases hb
    | cons y k =>
      cases i with
      | zero =>
        obtain rfl := Option.some.inj ha
        obtain rfl := Option.some.inj hb
        exact ⟨(List.zipWith g l k).flatten, .refl _, fun _ => .refl _⟩
      | succ i =>
        obtain ⟨rest, hp, hm⟩ := ih ha hb
        refine ⟨g x y ++ rest, ?_, ?_⟩
        · exact (hp.append_left _).trans (List.perm_append_comm_assoc _ _ _)
        · intro f
          exact ((hm f).append_left _).trans (List.perm_append_comm_assoc _ _ _)

end SharedOwnership
