import Mathlib.Data.List.Basic
import Mathlib.Logic.Function.Iterate

/-!
# Streams of device work and their capture

A `WorkStream` runs what is enqueued on it in order, unless a capture is open: then the work is only
recorded. A host routine enqueues `ops` when it does nothing else to any stream (`Enqueues`): run on an
idle stream it changes the device, run inside a capture it leaves the device alone (`Enqueues.idle`,
`Enqueues.capture`). `WorkStream.capture` is the usual capture with warm-up runs: these run for real, the
recorded one does not.
-/

/-- What is looked up is in the list. -/
theorem List.mem_of_lookup_eq_some {α β : Type} [BEq α] [LawfulBEq α] {l : List (α × β)} {a : α} {b : β}
    (h : l.lookup a = some b) : (a, b) ∈ l := by
  obtain ⟨l₁, l₂, rfl, -⟩ := List.lookup_eq_some_iff.1 h
  simp

namespace Lib

/-- A device behind a stream, and the work recorded so far while a capture is open. -/
structure WorkStream (D : Type) where
  dev : D
  recording : Option (List (D → D)) := none

namespace WorkStream

variable {D : Type}

/-- `ops` on a device, in order. -/
def runOps (ops : List (D → D)) (d : D) : D := ops.foldl (fun d op => op d) d

def enqueue (op : D → D) (s : WorkStream D) : WorkStream D :=
  match s.recording with
  | none => { s with dev := op s.dev }
  | some ops => { s with recording := some (ops ++ [op]) }

def enqueueAll (ops : List (D → D)) (s : WorkStream D) : WorkStream D :=
  ops.foldl (fun s op => s.enqueue op) s

def beginCapture (s : WorkStream D) : WorkStream D := { s with recording := some [] }

/-- The recorded graph. -/
def endCapture (s : WorkStream D) : List (D → D) × WorkStream D :=
  (s.recording.getD [], { s with recording := none })

/-- `warmups` runs of `body`, then one that is recorded. -/
def capture (warmups : ℕ) (body : WorkStream D → WorkStream D) (s : WorkStream D) :
    List (D → D) × WorkStream D :=
  (body (body^[warmups] s).beginCapture).endCapture

/-- One dispatch of a recorded graph. -/
def launch (graph : List (D → D)) (s : WorkStream D) : WorkStream D := s.enqueueAll graph

/-- `body` enqueues `ops` and does nothing else. -/
def Enqueues (body : WorkStream D → WorkStream D) (ops : List (D → D)) : Prop :=
  ∀ s, body s = s.enqueueAll ops

@[simp] theorem runOps_nil (d : D) : runOps [] d = d := rfl

@[simp] theorem runOps_cons (op : D → D) (ops : List (D → D)) (d : D) :
    runOps (op :: ops) d = runOps ops (op d) := rfl

theorem enqueueAll_idle (ops : List (D → D)) (d : D) :
    enqueueAll ops { dev := d } = { dev := runOps ops d } := by
  induction ops generalizing d with
  | nil => rfl
  | cons op ops ih => exact ih (op d)

theorem enqueueAll_recording (ops rec : List (D → D)) (d : D) :
    enqueueAll ops { dev := d, recording := some rec } =
      { dev := d, recording := some (rec ++ ops) } := by
  induction ops generalizing rec with
  | nil => simp [enqueueAll]
  | cons op ops ih =>
    rw [List.append_cons]
    exact ih (rec ++ [op])

theorem launch_idle (graph : List (D → D)) (d : D) :
    launch graph { dev := d } = { dev := runOps graph d } :=
  enqueueAll_idle graph d

theorem launch_iterate (graph : List (D → D)) (n : ℕ) (d : D) :
    (launch graph)^[n] { dev := d } = { dev := (runOps graph)^[n] d } := by
  induction n generalizing d with
  | zero => rfl
  | succ n ih =>
    rw [Function.iterate_succ_apply, Function.iterate_succ_apply, launch_idle, ih]

section

variable {body : WorkStream D → WorkStream D} {ops : List (D → D)} (h : Enqueues body ops)
include h

theorem Enqueues.idle (d : D) : body { dev := d } = { dev := runOps ops d } := by
  rw [h, enqueueAll_idle]

theorem Enqueues.iterate (n : ℕ) (d : D) :
    body^[n] { dev := d } = { dev := (runOps ops)^[n] d } := by
  induction n generalizing d with
  | zero => rfl
  | succ n ih => rw [Function.iterate_succ_apply, Function.iterate_succ_apply, h.idle, ih]

/-- **A capture** runs its warm-ups on the device and nothing more. -/
theorem Enqueues.capture (n : ℕ) (d : D) :
    capture n body { dev := d } = (ops, { dev := (runOps ops)^[n] d }) := by
  rw [WorkStream.capture, h.iterate, h]
  simp [beginCapture, enqueueAll_recording, endCapture]

end

end WorkStream

end Lib
