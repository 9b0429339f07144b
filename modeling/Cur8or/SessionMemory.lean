import Cur8or.MessageProcessing
import Cur8or.SharedOwnership

/-! Who keeps the server's objects in memory. The listener and the sessions bind a shared pointer
to themselves to every operation they start, a session's loader keeps the resolver, and the
finalizer of a request keeps, inside the callback it was given, the session. -/
namespace SessionMemory

open SharedOwnership MessageProcessing PathResolver

inductive Object where
  | resolver
  | listener
  | session
  | finalizer
  deriving DecidableEq

/-- The objects `main` makes, in their order. -/
def resolver : ℕ := 0

def listener : ℕ := 1

def acceptUpcoming (m : Memory Object) : Memory Object := m.sharedFromThis listener

/-- The listener's functor in `main`: `make_shared<SimpleSession>(...)->startSession()` -/
def connectionHandler (m : Memory Object) : Memory Object :=
  let id := m.heap.cells.length
  (((m.retain resolver).make .session (some resolver)).sharedFromThis id).release id

def runHandlerOnSocket (m : Memory Object) (ok : Bool) : Memory Object :=
  let m := m.call listener
  (if ok then acceptUpcoming (connectionHandler m) else m).release listener

def handler (m : Memory Object) (id : ℕ) (again : Bool) : Memory Object :=
  let m := m.call id
  (if again then m.sharedFromThis id else m).release id

/-- `processRequest` up to the loader: the callback gets a pointer of its own. -/
def processRequest (m : Memory Object) (id : ℕ) : Memory Object := (m.call id).sharedFromThis id

def sendResponse (m : Memory Object) (id : ℕ) : Memory Object := m.sharedFromThis id

/-- The finalizer takes the callback over and is bound to the three callbacks of the query; the
functor makes `copies` of the query. -/
def bindFinalizer (m : Memory Object) (id copies : ℕ) : Memory Object :=
  (m.make .finalizer (some id)).retains m.heap.cells.length (3 * (copies + 1))

/-- All of them are gone when `operator()` returns. -/
def finalize (m : Memory Object) (id copies answers : ℕ) : Memory Object :=
  let f := m.heap.cells.length
  let m := (fun m => sendResponse (m.call f) id)^[answers] (bindFinalizer m id copies)
  m.releases f (3 * (copies + 1) + 1)

/-- The rest of `processRequest`: the loader's call, and the end of the read's handler. A call
without end keeps what it holds, and one that takes the program down runs no destructor. -/
def respond (m : Memory Object) (id copies : ℕ) (handled : Processing) : Memory Object :=
  match handled.ended with
  | .returned =>
    match handled.handler with
    | some _ => (finalize m id copies handled.responses.length).release id
    | none => (((sendResponse · id)^[handled.responses.length] m).release id).release id
  | .endless => bindFinalizer m id copies
  | .terminated _ | .undefined _ => m

/-- The references to a finalizer that the frames of a call without end keep. -/
def stalls (m : Memory Object) (copies : ℕ) (handled : Processing) : List ℕ :=
  if handled.ended = .endless then List.replicate (3 * (copies + 1) + 1) m.heap.cells.length
  else []

variable {m : Memory Object} {rest : List ℕ} {id : ℕ}

theorem handler_sound (hs : m.Sound (id :: rest)) (again : Bool) :
    (handler m id again).Sound (List.replicate again.toNat id ++ rest) := by
  have hcall := hs.call List.mem_cons_self
  cases again with
  | true => exact (hcall.sharedFromThis List.mem_cons_self).release
  | false => exact hcall.release

theorem processRequest_sound (hs : m.Sound (id :: rest)) :
    (processRequest m id).Sound (id :: id :: rest) :=
  (hs.call List.mem_cons_self).sharedFromThis List.mem_cons_self

theorem bindFinalizer_sound (hs : m.Sound (id :: rest)) (copies : ℕ) :
    (bindFinalizer m id copies).Sound
      (List.replicate (3 * (copies + 1) + 1) m.heap.cells.length ++ rest) := by
  have hmake : (m.make .finalizer (some id)).Sound (m.heap.cells.length :: rest) :=
    Memory.Sound.make Object.finalizer (some id) hs
  have hbound := hmake.retains List.mem_cons_self (3 * (copies + 1))
  rw [List.replicate_succ', List.append_assoc, List.singleton_append]
  exact hbound

theorem finalize_sound (hs : m.Sound (id :: id :: rest)) (copies : ℕ) :
    (finalize m id copies 1).Sound (id :: id :: rest) := by
  have hbound := bindFinalizer_sound hs copies
  have hcall := hbound.call (List.mem_append_left _ (List.mem_replicate.mpr ⟨by omega, rfl⟩))
  have hsend := hcall.sharedFromThis (List.mem_append_right _ List.mem_cons_self)
  apply Memory.Sound.releases
  apply hsend.perm
  exact List.perm_middle.symm

theorem respond_returned (hs : m.Sound (id :: id :: rest)) (copies : ℕ) {handled : Processing}
    (hended : handled.ended = .returned) (hone : handled.responses.length = 1) :
    (respond m id copies handled).Sound (id :: rest) := by
  simp only [respond, hended, hone]
  cases handled.handler with
  | some run => exact (finalize_sound hs copies).release
  | none =>
    have hsend : (sendResponse m id).Sound (id :: id :: id :: rest) :=
      hs.sharedFromThis List.mem_cons_self
    exact hsend.release.release

theorem respond_endless (hs : m.Sound (id :: id :: rest)) (copies : ℕ) {handled : Processing}
    (hended : handled.ended = .endless) :
    (respond m id copies handled).Sound (id :: (stalls m copies handled ++ rest)) := by
  simp only [respond, stalls, hended, if_true]
  exact (bindFinalizer_sound hs copies).perm List.perm_middle

theorem respond_ended {handled : Processing} (copies : ℕ) (hr : handled.ended ≠ .returned)
    (he : handled.ended ≠ .endless) : respond m id copies handled = m := by
  cases hended : handled.ended with
  | returned => exact absurd hended hr
  | endless => exact absurd hended he
  | terminated f | undefined f => simp only [respond, hended]

theorem connectionHandler_sound (hs : m.Sound rest) (hr : resolver ∈ rest) :
    (connectionHandler m).Sound (m.heap.cells.length :: rest) := by
  have hmake := Memory.Sound.make Object.session (some resolver) (hs.retain hr)
  have hlen : (m.retain resolver).heap.cells.length = m.heap.cells.length :=
    Heap.length_setUses _ _ _
  rw [hlen] at hmake
  exact (hmake.sharedFromThis List.mem_cons_self).release

theorem runHandlerOnSocket_ok (hs : m.Sound (listener :: rest)) (hr : resolver ∈ rest) :
    (runHandlerOnSocket m true).Sound (m.heap.cells.length :: listener :: rest) := by
  have hcall := hs.call List.mem_cons_self
  have hconnect := connectionHandler_sound hcall (List.mem_cons_of_mem _ hr)
  have haccept := hconnect.sharedFromThis (List.mem_cons_of_mem _ List.mem_cons_self)
  exact haccept.release

theorem runHandlerOnSocket_error (hs : m.Sound (listener :: rest)) :
    (runHandlerOnSocket m false).Sound rest := (hs.call List.mem_cons_self).release

theorem handler_grows (x : Object × Option ℕ) (again : Bool) :
    Memory.Grows x m (handler m id again) := by
  apply Memory.Grows.of_fixed
  intro j
  cases again with
  | true => simp [handler]
  | false => simp [handler]

theorem bindFinalizer_made (copies j : ℕ) :
    (bindFinalizer m id copies).heap.fixed j = (m.heap.make Object.finalizer (some id)).fixed j :=
  Memory.fixed_retains _ _ _ _

theorem respond_grows (copies : ℕ) (handled : Processing) :
    Memory.Grows (.finalizer, some id) m (respond m id copies handled) := by
  rw [respond]
  split
  · cases handled.handler with
    | some run =>
      apply Memory.Grows.of_make
      intro j
      rw [Memory.fixed_release, finalize, Memory.fixed_releases,
        Memory.fixed_iterate (fun m => by simp [sendResponse])]
      exact bindFinalizer_made copies j
    | none =>
      apply Memory.Grows.of_fixed
      intro j
      rw [Memory.fixed_release, Memory.fixed_release,
        Memory.fixed_iterate (fun m => by simp [sendResponse])]
  · exact Memory.Grows.of_make (bindFinalizer_made copies)
  · exact Memory.Grows.of_fixed fun _ => rfl
  · exact Memory.Grows.of_fixed fun _ => rfl

theorem mem_stalls {copies : ℕ} {handled : Processing} {j : ℕ}
    (hj : j ∈ stalls m copies handled) : handled.ended = .endless ∧
      (respond m id copies handled).heap.fixed j = some (.finalizer, some id) := by
  rw [stalls] at hj
  split at hj
  · next hended =>
    obtain rfl := List.eq_of_mem_replicate hj
    refine ⟨hended, ?_⟩
    simp only [respond, hended]
    rw [bindFinalizer_made, Heap.fixed_make, if_pos rfl]
  · cases hj

theorem runHandlerOnSocket_made (j : ℕ) : (runHandlerOnSocket m true).heap.fixed j =
    (m.heap.make Object.session (some resolver)).fixed j := by
  have hlen : (m.retain resolver).heap.cells.length = m.heap.cells.length :=
    Heap.length_setUses _ _ _
  simp only [runHandlerOnSocket, acceptUpcoming, connectionHandler, if_true, Memory.fixed_release,
    Memory.fixed_sharedFromThis]
  change ((m.retain resolver).heap.make _ _).fixed j = _
  rw [Heap.fixed_make, Heap.fixed_make, hlen, Memory.fixed_retain]

theorem runHandlerOnSocket_fixed (j : ℕ) :
    (runHandlerOnSocket m false).heap.fixed j = m.heap.fixed j := by simp [runHandlerOnSocket]

end SessionMemory
