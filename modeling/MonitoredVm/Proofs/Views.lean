import MonitoredVm.Machine.Host
import MonitoredVm.Proofs.Evaluation

/-!
# Views of a machine

Snapshots, leases and the log are the books of a machine. Most of what an operation does only keeps them, so it does not
show in a view of the machine that leaves the books out: `Machine.Bookless`, and `Machine.Coarse` where what sessions
preserve is left out too.

Main statements: packing and handing over do not show in a view without the books, nor does preserving in a coarse one
(`Bookless.packAll`, `Bookless.pack`, `Bookless.handOver`, `Coarse.preserve`). Each induction over what is packed or handed over is done here once, for every
such view.
-/

namespace MonitoredVm

/-- A view of machines that does not show the log and the leases that are taken. -/
structure Machine.Bookless {κ : Type} (view : Machine → κ) : Prop where
  note : ∀ m level n, view (m.note level n) = view m
  acquire : ∀ m owner, view (m.acquire owner).1 = view m

/-- A view of machines that does not show what a session preserves either. -/
structure Machine.Coarse {κ : Type} (view : Machine → κ) : Prop extends Machine.Bookless view where
  session : ∀ m c (s : Session), s.stage = (m.session c).stage → view (m.setSession c (some s)) = view m

namespace Work
variable {ε δ α β κ : Type} {view : Machine → κ}

theorem get_apply (m) : (get : Work ε Machine) m = (.ok m, m) := rfl

theorem change_apply (f : Machine → Machine) (m) : (change f : Work ε Unit) m = (.ok (), f m) := rfl

theorem liftM_apply (x : StateM Machine α) (m) : (liftM x : Work ε α) m = (.ok (x m).1, (x m).2) := rfl

theorem convert_of_ok (value : w m = (.ok a, m')) (f : ε → δ) : convert f w m = (.ok a, m') := by
  rw [convert, value]
  rfl

theorem convert_of_error (failed : w m = (.error e, m')) (f : ε → δ) : convert f w m = (.error (f e), m') := by
  rw [convert, failed]
  rfl

theorem state_bind (x : StateM S α) (f : α → StateM S β) (s) : (x >>= f) s = f (x s).1 (x s).2 := rfl

theorem state_get (s) : (get : StateM S S) s = (s, s) := rfl

/-- The work does not show in a view. -/
def Unseen (view : Machine → κ) (w : Work ε α) : Prop := ∀ m, view (w m).2 = view m

theorem Unseen.pure (a : α) : Unseen view (pure a : Work ε α) := fun _ => rfl

theorem Unseen.throw (e : ε) : Unseen view (throw e : Work ε α) := fun _ => rfl

theorem Unseen.bind (first : Unseen view w) (rest : ∀ a, Unseen view (f a)) : Unseen view (w >>= f) := by
  intro m
  rcases value : w m with ⟨e | a, m'⟩
  · rw [bind_of_error value, ← first m, value]
  · rw [bind_of_ok value, rest a m', ← first m, value]

theorem Unseen.lift {x : StateM Machine α} (unseen : ∀ m, view (x m).2 = view m) :
    Unseen view (liftM x : Work ε α) := unseen

theorem Unseen.convert (unseen : Unseen view w) (f : ε → δ) : Unseen view (convert f w) := unseen

theorem Unseen.map (unseen : Unseen view w) (f : α → β) : Unseen view (f <$> w) := by
  rw [map_eq_pure_bind]
  exact unseen.bind fun _ => .pure _

theorem unseen_get : Unseen view (get : Work ε Machine) := fun _ => rfl

theorem unseen_resolve (c id restrict ready operation) : Unseen view (resolve c id restrict ready operation) := by
  refine unseen_get.bind fun m => ?_
  dsimp only
  split
  · exact .throw _
  · split
    · exact .throw _
    · split
      · exact .throw _
      · exact .pure _

theorem unseen_target (c) : Unseen view (target c) := by
  refine unseen_get.bind fun m => ?_
  split
  · exact .pure _
  · exact .throw _

theorem unseen_interpreterOf (args) : Unseen view (interpreterOf args) := by
  refine unseen_get.bind fun m => ?_
  split
  · exact .pure _
  · exact .throw _

end Work

namespace Machine.Bookless
open Work
variable {ε κ : Type} {view : Machine → κ}

theorem letGo (bookless : Bookless view) (leases) (m : Machine) : view (m.letGo leases) = view m := by
  rw [Machine.letGo]
  induction leases generalizing m with
  | nil => rfl
  | cons l rest ih =>
    rw [List.foldl_cons, ih]
    split
    · exact bookless.note m _ _
    · rfl

theorem snapshot (bookless : Bookless view) (source v full) : Unseen view (Work.snapshot source v full) := by
  intro m
  change view (m.snapshot source v full).1 = view m
  unfold Machine.snapshot
  split
  · exact bookless.acquire m _
  · rfl

theorem dropped (bookless : Bookless view) (leases) : Unseen view (Work.letGo leases : Work ε Unit) :=
  fun m => bookless.letGo leases m

theorem packAll (bookless : Bookless view) (source items packed) : Unseen view (Work.packAll source packed items) := by
  induction items generalizing packed with
  | nil => exact .pure packed
  | cons item rest ih =>
    obtain ⟨name, v⟩ := item
    rw [Work.packAll]
    refine Unseen.bind (.lift (bookless.snapshot source v false)) fun result => ?_
    cases result with
    | ok s => exact ih _
    | error e => exact (bookless.dropped _).bind fun _ => .throw e

theorem handOver (bookless : Bookless view) (failed items ns) : Unseen view (Work.handOver failed items ns) := by
  induction items generalizing ns with
  | nil => exact .pure ns
  | cons item rest ih =>
    obtain ⟨name, s⟩ := item
    rw [Work.handOver]
    refine Unseen.bind (.lift fun _ => rfl) fun result => ?_
    cases result with
    | ok v => exact ih _
    | error e =>
      dsimp only
      split
      · exact Unseen.bind (fun m => bookless.note m _ _) fun _ => ih ns
      · exact (bookless.dropped _).bind fun _ => .throw _

theorem pack (bookless : Bookless view) (source callee args kwargs) :
    Unseen view (Work.pack source callee args kwargs) := by
  have parts : ∀ v, Unseen view (part source v) := fun v => (bookless.snapshot source v true).convert _
  unfold Work.pack
  dsimp only
  split
  · exact fun _ => rfl
  · refine (parts callee).bind fun func => ?_
    split
    · refine Unseen.bind (.pure none) fun args => ?_
      split
      · exact .pure _
      · exact ((parts _).map some).bind fun _ => .pure _
    · refine ((parts _).map some).bind fun args => ?_
      split
      · exact .pure _
      · exact ((parts _).map some).bind fun _ => .pure _

end Machine.Bookless

namespace Machine.Coarse
open Work

theorem preserve (coarse : Coarse view) (c name v) : Unseen view (Work.preserve c name v) := by
  refine (unseen_target c).bind fun id => ?_
  refine ((coarse.snapshot id v true).convert _).bind fun s => unseen_get.bind fun _ => ?_
  exact Unseen.bind (fun m => coarse.session m c _ rfl) fun _ => coarse.dropped _

end Machine.Coarse
end MonitoredVm
