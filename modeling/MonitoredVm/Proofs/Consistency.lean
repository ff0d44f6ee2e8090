import MonitoredVm.Proofs.Turns

/-!
# Consistent rosters

Status, sessions and contexts agree: a context in no session runs in the main interpreter, one that has entered an
interpreter runs in it and came from the main one, an interpreter is running exactly while one context has entered
it, and only handles of other interpreters than the main one own theirs.

Main statement: every machine that is reached by turns that are allowed is consistent (`consistent_takeAll`). One
lemma says what consistency does not depend on (`Consistent.carry`); entering and leaving are proved by themselves.
-/

namespace MonitoredVm

namespace Roster

/-- Status, sessions and contexts agree. -/
structure Consistent (o : Roster) : Prop where
  positive : 0 < o.nextId
  bounded : ∀ {id}, (o.whence? id).isSome = true → id < o.nextId
  main : o.whence? 0 = some .runtime
  homely : o.Homely
  entered : ∀ {c t p}, (o.place c).stage = .entered t p →
    (o.place c).current = t ∧ p = 0 ∧ o.status? t = some .running
  alone : ∀ {c d t p q}, (o.place c).stage = .entered t p → (o.place d).stage = .entered t q → c = d
  running : ∀ {t}, o.status? t = some .running → ∃ c p, (o.place c).stage = .entered t p
  owning : ∀ e ∈ o.handles.entries, e.2.owning = true → e.2.id ≠ 0

theorem whence_change (o : Roster) (id) (same : ∀ s, (f s).whence = s.whence) (j) :
    (o.change id f).whence? j = o.whence? j := by
  rw [whence?, whence?, standing_change]
  split
  · rw [Option.map_map]
    exact congrArg (Option.map · (o.standing j)) (funext same)
  · rfl

theorem status_change_of_ne (o : Roster) {id j} (f : Standing → Standing) (other : j ≠ id) :
    (o.change id f).status? j = o.status? j := by
  rw [status?, standing_change, if_neg other]
  rfl

theorem running_change (o : Roster) {id f} (same : ∀ s, (f s).status = .running ↔ s.status = .running) (j) :
    (o.change id f).status? j = some .running ↔ o.status? j = some .running := by
  by_cases here : j = id
  · subst here
    rw [status?, status?, standing_change, if_pos rfl]
    cases o.standing j with
    | none => exact Iff.rfl
    | some s => simpa using same s
  · rw [status_change_of_ne o f here]

theorem place_grown (o : Roster) (c) : ({ o with places := o.places ++ [{}] } : Roster).place c = o.place c := by
  rw [place, place, List.getElem?_append]
  split
  · rfl
  · next outside =>
    rw [List.getElem?_eq_none (Nat.le_of_not_lt outside)]
    cases c - o.places.length <;> rfl

/-! ## What entering and leaving show -/

section Moving
variable {o : Roster} {c d : Nat} {t j p : Int}

theorem place_enter_of_ne (other : d ≠ c) : (o.enter c t).place d = o.place d := by
  rw [enter, place_move, if_neg fun both => other both.1.symm]
  rfl

theorem status_enter (ready : o.status? t = some .ready) : (o.enter c t).status? t = some .running := by
  obtain ⟨s, there, -⟩ := Option.map_eq_some_iff.1 ready
  change (o.mark t .running).status? t = _
  rw [status?, mark, standing_change, if_pos rfl, there]
  rfl

theorem status_enter_of_ne (other : j ≠ t) : (o.enter c t).status? j = o.status? j :=
  o.status_change_of_ne _ other

theorem lt_of_entered (entered : (o.place c).stage = .entered t p) : c < o.places.length := by
  refine Nat.lt_of_not_le fun outside => ?_
  rw [place_of_length_le outside] at entered
  cases entered

theorem leave_of_entered (entered : (o.place c).stage = .entered t p) :
    o.leave c = (o.rest t).move c fun _ => ⟨p, .idle⟩ := by
  rw [leave, entered]

theorem place_leave (entered : (o.place c).stage = .entered t p) : (o.leave c).place c = ⟨p, .idle⟩ := by
  rw [leave_of_entered entered, place_move, if_pos ⟨rfl, lt_of_entered entered⟩]

theorem place_leave_of_ne (other : d ≠ c) : (o.leave c).place d = o.place d := by
  cases stage : (o.place c).stage with
  | idle => rw [leave_of_idle stage]
  | entered t p =>
    rw [leave_of_entered stage, place_move, if_neg fun both => other both.1.symm]
    rfl

theorem status_leave (entered : (o.place c).stage = .entered t p) (running : o.status? t = some .running) :
    (o.leave c).status? t = some .ready := by
  obtain ⟨s, there, runs⟩ := Option.map_eq_some_iff.1 running
  rw [leave_of_entered entered]
  change (o.rest t).status? t = _
  rw [status?, rest, standing_change, if_pos rfl, there]
  simp [runs]

theorem status_leave_of_ne (entered : (o.place c).stage = .entered t p) (other : j ≠ t) :
    (o.leave c).status? j = o.status? j := by
  rw [leave_of_entered entered]
  exact o.status_change_of_ne _ other

theorem whence_leave (o : Roster) (c j) : (o.leave c).whence? j = o.whence? j := by
  cases stage : (o.place c).stage with
  | idle => rw [leave_of_idle stage]
  | entered t p =>
    rw [leave_of_entered stage]
    refine o.whence_change t (fun s => ?_) j
    split <;> rfl

end Moving

namespace Consistent
variable {o o' : Roster}

section
variable (h : o.Consistent)
include h

theorem carry (nextId : o'.nextId = o.nextId)
    (whence : ∀ id, o'.whence? id = o.whence? id) (places : ∀ c, o'.place c = o.place c)
    (running : ∀ t, o'.status? t = some .running ↔ o.status? t = some .running)
    (owning : ∀ e ∈ o'.handles.entries, e.2.owning = true → e.2.id ≠ 0) : o'.Consistent where
  positive := nextId ▸ h.positive
  bounded {id} there := nextId ▸ h.bounded (whence id ▸ there)
  main := (whence 0).trans h.main
  homely c idle := by
    rw [places] at idle ⊢
    exact h.homely c idle
  entered {c t p} there := by
    rw [places] at there ⊢
    obtain ⟨current, home, runs⟩ := h.entered there
    exact ⟨current, home, (running t).2 runs⟩
  alone {c d t p q} first second := by
    rw [places] at first second
    exact h.alone first second
  running {t} runs := by
    obtain ⟨c, p, there⟩ := h.running ((running t).1 runs)
    exact ⟨c, p, by rw [places, there]⟩
  owning := owning

theorem meanwhile (step : Meanwhile o o') : o'.Consistent := by
  refine h.carry step.nextId (fun id => ?_) step.place (fun t => ?_) (step.handles ▸ h.owning)
  · obtain same | ⟨-, s, there, -, ended⟩ := step.standing id
    · rw [whence?, whence?, same]
    · rw [whence?, whence?, there, ended]
      rfl
  · obtain same | ⟨-, s, there, ready, ended⟩ := step.standing t
    · rw [status?, status?, same]
    · simp [status?, there, ended, ready]

theorem change (id) (whence : ∀ s, (f s).whence = s.whence)
    (running : ∀ s, (f s).status = .running ↔ s.status = .running) : (o.change id f).Consistent :=
  h.carry rfl (o.whence_change id whence) (fun _ => rfl) (o.running_change running) h.owning

theorem addRef (id link) : (o.addRef id link).Consistent :=
  h.change id (fun _ => rfl) fun _ => Iff.rfl

theorem dropRef (id ending) : (o.dropRef id ending).Consistent := by
  refine h.change id (fun s => ?_) fun s => ?_
  · split <;> rfl
  · split
    · next last => simp [last]
    · exact Iff.rfl

theorem create (whence) : (o.create whence).Consistent := by
  have fresh : o.standing o.nextId = none := by
    cases there : o.standing o.nextId with
    | none => rfl
    | some s => exact absurd (h.bounded (by rw [whence?, there]; rfl)) (Int.lt_irrefl o.nextId)
  have running : ∀ t, (o.create whence).status? t = some .running ↔ o.status? t = some .running := by
    intro t
    rw [status?, status?, Roster.create]
    dsimp only
    by_cases new : t = o.nextId
    · subst new
      simp [fresh]
    · simp [new]
  refine ⟨?_, ?_, ?_, h.homely, ?_, h.alone, ?_, h.owning⟩
  · have positive := h.positive
    change 0 < o.nextId + 1
    omega
  · intro id there
    change id < o.nextId + 1
    by_cases new : id = o.nextId
    · omega
    · have old : (o.whence? id).isSome = true := by simpa [whence?, Roster.create, new] using there
      have := h.bounded old
      omega
  · obtain ⟨s, there, made⟩ := Option.map_eq_some_iff.1 h.main
    rw [whence?, Roster.create]
    simp [there, made]
  · intro c t p there
    obtain ⟨current, home, runs⟩ := h.entered there
    exact ⟨current, home, (running t).2 runs⟩
  · intro t runs
    exact h.running ((running t).1 runs)

theorem handles (owning : ∀ e ∈ kept.entries, e.2.owning = true → e.2.id ≠ 0) :
    ({ o with handles := kept } : Roster).Consistent :=
  h.carry rfl (fun _ => rfl) (fun _ => rfl) (fun _ => Iff.rfl) owning

theorem keepHandle (name) (fine : new.owning = true → new.id ≠ 0) : (o.keepHandle name new).Consistent := by
  have kept : ({ o with handles := o.handles.insert name new } : Roster).Consistent := by
    refine h.handles fun e inside => ?_
    obtain old | same := Bindings.of_mem_put inside
    · exact h.owning e old
    · exact same ▸ fine
  unfold Roster.keepHandle
  dsimp only
  split
  · exact kept.dropRef _ _
  · exact kept

/-- Entering an interpreter at rest: it runs from now on, and no other context has entered it. -/
theorem enter (free : o.Free c) (ready : o.status? t = some .ready) : (o.enter c t).Consistent := by
  have here := place_enter (t := t) free.inside
  have nobody : ∀ {d p}, (o.place d).stage ≠ .entered t p := by
    intro d p there
    obtain ⟨-, -, runs⟩ := h.entered there
    cases ready.symm.trans runs
  -- a stage of the new roster is that of `c` or an old one
  have stage : ∀ {d u q}, ((o.enter c t).place d).stage = .entered u q →
      d = c ∧ u = t ∧ q = 0 ∨ d ≠ c ∧ u ≠ t ∧ (o.place d).stage = .entered u q := by
    intro d u q there
    by_cases same : d = c
    · subst same
      rw [here] at there
      cases there
      exact .inl ⟨rfl, rfl, h.homely d free.idle⟩
    · rw [place_enter_of_ne same] at there
      exact .inr ⟨same, fun it => nobody (it ▸ there), there⟩
  have whence : ∀ id, (o.enter c t).whence? id = o.whence? id := o.whence_change t fun _ => rfl
  refine ⟨h.positive, fun there => h.bounded (whence _ ▸ there), (whence 0).trans h.main, fun d idle => ?_, ?_, ?_, ?_,
    h.owning⟩
  · by_cases same : d = c
    · subst same
      rw [here] at idle
      cases idle
    · rw [place_enter_of_ne same] at idle ⊢
      exact h.homely d idle
  · intro d u q there
    obtain ⟨rfl, rfl, rfl⟩ | ⟨other, different, there⟩ := stage there
    · exact ⟨by rw [here], rfl, status_enter ready⟩
    · obtain ⟨current, home, runs⟩ := h.entered there
      exact ⟨by rw [place_enter_of_ne other, current], home, (status_enter_of_ne different).trans runs⟩
  · intro d e u q q' first second
    obtain ⟨rfl, rfl, -⟩ | ⟨-, different, first⟩ := stage first
    · obtain ⟨rfl, -, -⟩ | ⟨-, different, -⟩ := stage second
      · rfl
      · exact absurd rfl different
    · obtain ⟨-, rfl, -⟩ | ⟨-, -, second⟩ := stage second
      · exact absurd rfl different
      · exact h.alone first second
  · intro u runs
    by_cases same : u = t
    · subst same
      exact ⟨c, _, by rw [here]⟩
    · rw [status_enter_of_ne same] at runs
      obtain ⟨d, q, there⟩ := h.running runs
      have other : d ≠ c := by
        rintro rfl
        cases free.idle.symm.trans there
      exact ⟨d, q, by rw [place_enter_of_ne other, there]⟩

/-- Leaving: the interpreter is at rest again, and since no other context had entered it, the others stay as they
are. -/
theorem leave (c) : (o.leave c).Consistent := by
  cases entered : (o.place c).stage with
  | idle => rwa [leave_of_idle entered]
  | entered t p =>
    obtain ⟨-, rfl, runs⟩ := h.entered entered
    have here := place_leave entered
    have stage : ∀ {d u q}, ((o.leave c).place d).stage = .entered u q →
        d ≠ c ∧ u ≠ t ∧ (o.place d).stage = .entered u q := by
      intro d u q there
      have other : d ≠ c := by
        rintro rfl
        rw [here] at there
        cases there
      rw [place_leave_of_ne other] at there
      exact ⟨other, fun same => other (h.alone (same ▸ there) entered), there⟩
    have fixed : (o.leave c).nextId = o.nextId ∧ (o.leave c).handles = o.handles := by
      rw [leave_of_entered entered]
      exact ⟨rfl, rfl⟩
    refine ⟨fixed.1 ▸ h.positive, fun there => ?_, (o.whence_leave c 0).trans h.main, fun d idle => ?_, ?_, ?_, ?_,
      fixed.2 ▸ h.owning⟩
    · exact fixed.1 ▸ h.bounded (o.whence_leave c _ ▸ there)
    · by_cases same : d = c
      · subst same
        rw [here]
      · rw [place_leave_of_ne same] at idle ⊢
        exact h.homely d idle
    · intro d u q there
      obtain ⟨other, different, there⟩ := stage there
      obtain ⟨current, home, runs⟩ := h.entered there
      exact ⟨by rw [place_leave_of_ne other, current], home, (status_leave_of_ne entered different).trans runs⟩
    · intro d e u q q' first second
      exact h.alone (stage first).2.2 (stage second).2.2
    · intro u runs'
      have different : u ≠ t := by
        rintro rfl
        cases (status_leave entered runs).symm.trans runs'
      rw [status_leave_of_ne entered different] at runs'
      obtain ⟨d, q, there⟩ := h.running runs'
      have other : d ≠ c := by
        rintro rfl
        cases entered.symm.trans there
        exact different rfl
      exact ⟨d, q, by rw [place_leave_of_ne other, there]⟩

theorem step (step : Step kind o o') : o'.Consistent := by
  cases step with
  | meanwhile step => exact h.meanwhile step
  | context => exact h.carry rfl (fun _ => rfl) o.place_grown (fun _ => Iff.rfl) h.owning
  | create whence link => exact (h.create whence).change _ (fun _ => rfl) fun _ => Iff.rfl
  | own name =>
    refine ((h.create .stdlib).addRef _ true).keepHandle name fun _ => ?_
    have positive := h.positive
    change o.nextId ≠ 0
    omega
  | refer name _ => exact (h.addRef _ false).keepHandle name fun owning => by cases owning
  | drop kept => exact (h.handles fun e inside => h.owning e (Bindings.of_mem_remove inside)).dropRef _ _
  | incref _ => exact h.addRef _ _
  | decref _ => exact h.dropRef _ true
  | enter free ready => exact h.enter free ready
  | leave => exact h.leave _

end

end Consistent
end Roster

/-! ## Histories -/

namespace Machine

def start (log : Log MachineNote) : Machine := { log }

def takeAll (m : Machine) (turns : List Turn) : Machine := turns.foldl take m

def allowsAll : Machine → List Turn → Bool
  | _, [] => true
  | m, turn :: turns => m.allows turn && (m.take turn).allowsAll turns

theorem consistent_start (log : Log MachineNote) : (start log).roster.Consistent := by
  have nowhere : ∀ c, (start log).roster.place c = {} := by
    intro c
    rw [place_roster]
    rcases c with _ | c <;> rfl
  have standing : ∀ id, (start log).roster.standing id = if id = 0 then some { whence := .runtime } else none := by
    intro id
    by_cases main : id = 0
    · subst main
      rfl
    · rw [if_neg main, standing_roster]
      simp [find?, start, Ne.symm main]
  have positive : 0 < (start log).roster.nextId := Int.one_pos
  refine ⟨positive, ?_, rfl, fun c _ => by rw [nowhere], ?_, ?_, ?_, fun e inside => ?_⟩
  · intro id there
    rw [Roster.whence?, standing] at there
    split at there
    · next main => exact main ▸ positive
    · cases there
  · intro c t p there
    rw [nowhere] at there
    cases there
  · intro c d t p q there
    rw [nowhere] at there
    cases there
  · intro t runs
    rw [Roster.status?, standing] at runs
    split at runs <;> cases runs
  · exact absurd inside List.not_mem_nil

theorem consistent_take {m : Machine} (h : m.roster.Consistent) (allowed : m.allows turn = true) :
    (m.take turn).roster.Consistent := h.step (step_take h.homely allowed)

theorem consistent_takeAll {m : Machine} (h : m.roster.Consistent) (allowed : m.allowsAll turns = true) :
    (m.takeAll turns).roster.Consistent := by
  induction turns generalizing m with
  | nil => exact h
  | cons turn turns ih =>
    obtain ⟨now, later⟩ := Bool.and_eq_true_iff.1 allowed
    exact ih (consistent_take h now) later

end Machine
end MonitoredVm
