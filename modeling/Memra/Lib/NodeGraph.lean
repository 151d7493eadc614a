import Memra.Lib.Capture

/-!
# Graphs of nodes that keep their parameters

A recorded graph as a list of nodes in issue order: `exec` is what one launch does, and a node that is
rewritten in place (`modify_at`) changes the launches to come. `captureNodes` is a capture with warm-up
runs of a body that enqueues such nodes. `firstFit` pairs two lists of nodes greedily: each of the first
takes the first free one of the second that it accepts.
-/

namespace Lib

variable {N D : Type}

/-- One launch. -/
def exec (run : N → D → D) (nodes : List N) (d : D) : D :=
  nodes.foldl (fun d n => run n d) d

section

variable (run : N → D → D)

@[simp] theorem exec_nil (d : D) : exec run [] d = d := rfl

@[simp] theorem exec_cons (n : N) (ns : List N) (d : D) :
    exec run (n :: ns) d = exec run ns (run n d) := rfl

@[simp] theorem exec_append (as bs : List N) (d : D) :
    exec run (as ++ bs) d = exec run bs (exec run as d) := by
  simp [exec]

/-- Recorded nodes, and the device after `warmups` runs of the body and the run that is recorded. -/
def captureNodes (warmups : ℕ) (nodes : List N) (d : D) : List N × D :=
  (nodes, (WorkStream.capture warmups (fun s => s.enqueueAll (nodes.map run)) { dev := d }).2.dev)

theorem runOps_map (nodes : List N) (d : D) :
    WorkStream.runOps (nodes.map run) d = exec run nodes d := by
  induction nodes generalizing d with
  | nil => rfl
  | cons n nodes ih => exact ih (run n d)

/-- The recorded run is the only one that leaves no trace. -/
theorem captureNodes_eq (warmups : ℕ) (nodes : List N) (d : D) :
    captureNodes run warmups nodes d = (nodes, (exec run nodes)^[warmups] d) := by
  have henq : WorkStream.Enqueues (fun s : WorkStream D => s.enqueueAll (nodes.map run))
      (nodes.map run) := fun _ => rfl
  have hrun : WorkStream.runOps (nodes.map run) = exec run nodes := funext (runOps_map run nodes)
  rw [captureNodes, henq.capture, hrun]

end

/-- The node that a prefix is followed by. -/
theorem modify_at (pre : List N) (n : N) (post : List N) (f : N → N) :
    (pre ++ n :: post).modify pre.length f = pre ++ f n :: post := by
  induction pre with
  | nil => rfl
  | cons p pre ih => simp [ih]

section

variable {A B : Type} [DecidableEq B]

/-- Each of `as` takes the first of `bs` it accepts that is still free. -/
def firstFit (ok : A → B → Bool) : List A → List B → Option (List (A × B))
  | [], _ => some []
  | a :: as, bs =>
    match bs.find? (ok a) with
    | none => none
    | some b => (firstFit ok as (bs.erase b)).map ((a, b) :: ·)

/-- **Lists that match in order** are paired in order. -/
theorem firstFit_zip {ok : A → B → Bool} {as : List A} {bs : List B}
    (h : List.Forall₂ (fun a b => ok a b = true) as bs) :
    firstFit ok as bs = some (as.zip bs) := by
  induction h with
  | nil => rfl
  | cons hab _ ih => simp [firstFit, hab, ih]

end

end Lib
