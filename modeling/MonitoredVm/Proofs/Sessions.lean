import MonitoredVm.Proofs.Consistency

/-!
# Sessions

An interpreter runs one session at a time, and a session takes its context back to where it came from. Between the
turn that enters and the turn that ends the session any other turns may be taken, on this context and on others.

Main statement: `session_exclusion`. What it adds to consistency is how long a session lasts: a context that has
entered an interpreter stays where it is until its own session ends (`Step.stays`, `stays_takeAll`).
-/

namespace MonitoredVm

namespace Roster
variable {o o' : Roster} {kind : Turn.Kind} {c : Nat}

theorem place_keepHandle (o : Roster) (name h c) : (o.keepHandle name h).place c = o.place c := by
  unfold keepHandle
  dsimp only
  split <;> rfl

theorem Step.place (step : Step kind o o') (enters : kind ≠ .enters c) (leaves : kind ≠ .leaves c) :
    o'.place c = o.place c := by
  cases step with
  | meanwhile step => exact step.place c
  | context => exact o.place_grown c
  | create => rfl
  | own name => exact place_keepHandle _ name _ c
  | refer name _ => exact place_keepHandle _ name _ c
  | drop => rfl
  | incref => rfl
  | decref => rfl
  | enter free ready => exact place_enter_of_ne fun same => enters (same ▸ rfl)
  | leave => exact place_leave_of_ne fun same => leaves (same ▸ rfl)

theorem Step.stays (step : Step kind o o') (entered : (o.place c).stage = .entered t p) (leaves : kind ≠ .leaves c) :
    o'.place c = o.place c := by
  by_cases enters : kind = .enters c
  · subst enters
    cases step with
    | meanwhile step => exact step.place c
    | enter free ready => cases free.idle.symm.trans entered
  · exact step.place enters leaves

end Roster

namespace Machine
variable {m : Machine} {c : Nat}

theorem stays_takeAll (h : m.roster.Consistent) (allowed : m.allowsAll turns = true)
    (entered : (m.roster.place c).stage = .entered t p) (lasts : ∀ turn ∈ turns, turn.kind ≠ .leaves c) :
    (m.takeAll turns).roster.place c = m.roster.place c := by
  induction turns generalizing m with
  | nil => rfl
  | cons turn turns ih =>
    obtain ⟨now, follow⟩ := Bool.and_eq_true_iff.1 allowed
    have stays := (step_take h.homely now).stays entered (lasts turn List.mem_cons_self)
    have later := ih (consistent_take h now) follow (by rw [stays, entered]) fun turn inside =>
      lasts turn (List.mem_cons_of_mem _ inside)
    exact later.trans stays

theorem roster_take_of_leaves (leaves : turn.kind = .leaves c) : (m.take turn).roster = m.roster.leave c := by
  have settled := fun command : Command => m.roster_settle (Value.leasesAll command.values)
  obtain ⟨failure, rfl⟩ | rfl := Turn.of_leaves leaves
  · change (m.perform _).1.roster = _
    rw [roster_perform, act, answer_fst, Work.roster_exit, settled]
  · change (m.perform _).1.roster = _
    rw [roster_perform, ← settled (.endSession c)]
    exact Work.roster_abandon c _

theorem roster_perform_enter (done : m.perform (.enter c target shared) = (m', .done)) :
    ∃ t, m.roster.status? t = some .ready ∧ m'.roster = m.roster.enter c t := by
  have settled := m.roster_settle (Value.leasesAll (Command.enter c target shared).values)
  have after := (congrArg (fun r : Machine × Response => r.1.roster) done).symm.trans
    (m.roster_perform (.enter c target shared))
  have reply : ((m.settle (Value.leasesAll (Command.enter c target shared).values)).act (.enter c target shared)).2 = .done :=
    congrArg Prod.snd done
  generalize m.settle (Value.leasesAll (Command.enter c target shared).values) = m₀ at settled after reply
  dsimp only at after
  rw [act, withTarget] at after reply
  cases found : m₀.targetOf target with
  | error e =>
    rw [found] at reply
    cases reply
  | ok i =>
    rw [found] at after reply
    dsimp only at after reply
    obtain ⟨e, m₁, failed, -⟩ | ⟨m₁, entered, -, ready, moved⟩ := Work.enter_cases c i.id shared m₀
    · unfold answer at reply
      rw [failed] at reply
      cases reply
    · rw [answer_fst, entered] at after
      exact ⟨i.id, settled ▸ ready, after.trans (settled ▸ moved)⟩

end Machine

/-- A second interpreter and a second context, and a session begun on the first. -/
def Turn.begun : List Turn := [.command (.create none false), .command .newContext, .command (.beginSession 0)]

/-- What the other context tries while the first has entered interpreter 1: to end it, and to enter it too. -/
def Turn.contention : List Turn :=
  [.command (.destroy 1 1 false), .command (.runString 1 1 "x = 1" {} false), .command (.beginSession 1),
    .command (.enter 1 (.id 1) {})]

end MonitoredVm
