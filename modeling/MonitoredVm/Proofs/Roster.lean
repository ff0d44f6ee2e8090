import MonitoredVm.Machine.Command

/-!
# The roster of a machine

What the life of interpreters and sessions depends on: which interpreters there are and how each stands, where the
contexts are, the handles the host keeps and the next id. The roster is a small machine of its own: entering,
leaving, counting references and ending an interpreter are functions of it.

Main statements: namespaces, leases, snapshots and the log do not show on the roster (`roster_settle`,
`roster_bindAll` and their like), and each operation that does show is its counterpart on rosters
(`roster_modifyInterpreter`, `roster_dropRef`, `roster_keepHandle`).
-/

namespace MonitoredVm

open List

/-- How an interpreter stands. -/
structure Standing where
  whence : Whence
  status : Status := .ready
  refs : Nat := 0
  requiresRefs : Bool := false
  deriving DecidableEq

/-- Where a context is: the interpreter it runs in and how far its session has come. -/
structure Place where
  current : Int := 0
  stage : Stage := .idle
  deriving DecidableEq

/-- What the life of interpreters and sessions depends on. -/
structure Roster where
  ids : List Int
  standing : Int → Option Standing
  places : List Place
  handles : Bindings Handle
  nextId : Int

def Interpreter.standing (i : Interpreter) : Standing := ⟨i.whence, i.status, i.refs, i.requiresRefs⟩

def Context.place (c : Context) : Place := ⟨c.current, (c.session.getD {}).stage⟩

def Machine.roster (m : Machine) : Roster where
  ids := m.interpreters.map (·.id)
  standing id := (m.find? id).map Interpreter.standing
  places := m.contexts.map Context.place
  handles := m.handles
  nextId := m.nextId

namespace Roster

def place (o : Roster) (c : Nat) : Place := (o.places[c]?).getD {}

def status? (o : Roster) (id : Int) : Option Status := (o.standing id).map (·.status)

def whence? (o : Roster) (id : Int) : Option Whence := (o.standing id).map (·.whence)

def change (o : Roster) (id : Int) (f : Standing → Standing) : Roster :=
  { o with standing := fun j => if j = id then (o.standing j).map f else o.standing j }

def move (o : Roster) (c : Nat) (f : Place → Place) : Roster := { o with places := o.places.modify c f }

def mark (o : Roster) (id : Int) (status : Status) : Roster := o.change id fun s => { s with status }

/-- Marks a running interpreter as ready. -/
def rest (o : Roster) (id : Int) : Roster :=
  o.change id fun s => if s.status = .running then { s with status := .ready } else s

def enter (o : Roster) (c : Nat) (t : Int) : Roster :=
  (o.mark t .running).move c fun p => ⟨t, .entered t p.current⟩

/-- Takes a context back to where it came from, if it has entered an interpreter. -/
def leave (o : Roster) (c : Nat) : Roster :=
  match (o.place c).stage with
  | .entered t previous => (o.rest t).move c fun _ => ⟨previous, .idle⟩
  | .idle => o

def create (o : Roster) (whence : Whence) : Roster :=
  { o with
    ids := o.ids ++ [o.nextId]
    standing := fun j => (o.standing j).or (if j = o.nextId then some { whence } else none)
    nextId := o.nextId + 1 }

def addRef (o : Roster) (id : Int) (link : Bool) : Roster :=
  o.change id fun s => { s with refs := s.refs + 1, requiresRefs := s.requiresRefs || link }

/-- Drops a reference: the last one ends an interpreter that requires references and is at rest. -/
def dropRef (o : Roster) (id : Int) (ending : Bool) : Roster :=
  o.change id fun s =>
    if s.refs - 1 = 0 ∧ s.requiresRefs ∧ ending ∧ s.status = .ready then
      { s with refs := s.refs - 1, status := .destroyed }
    else { s with refs := s.refs - 1 }

/-- Keeps a handle in place of the one kept under its name. -/
def keepHandle (o : Roster) (name : String) (h : Handle) : Roster :=
  let kept := { o with handles := o.handles.insert name h }
  match o.handles.get? name with
  | some old => kept.dropRef old.id old.owning
  | none => kept

theorem ext {o o' : Roster} (ids : o.ids = o'.ids) (standing : ∀ id, o.standing id = o'.standing id)
    (places : o.places = o'.places) (handles : o.handles = o'.handles) (nextId : o.nextId = o'.nextId) : o = o' := by
  obtain ⟨_, f, _, _, _⟩ := o
  obtain ⟨_, g, _, _, _⟩ := o'
  obtain rfl : f = g := funext standing
  simp_all

theorem change_change (o : Roster) (id) (f g : Standing → Standing) :
    (o.change id f).change id g = o.change id (g ∘ f) := by
  refine Roster.ext rfl (fun j => ?_) rfl rfl rfl
  dsimp only [change]
  split
  · rw [Option.map_map]
  · rfl

theorem change_congr {o : Roster} {id} {f g : Standing → Standing} (same : ∀ s ∈ o.standing id, f s = g s) :
    o.change id f = o.change id g := by
  refine Roster.ext rfl (fun j => ?_) rfl rfl rfl
  dsimp only [change]
  split
  · next here =>
    subst here
    cases stands : o.standing j with
    | none => rfl
    | some s => exact congrArg some (same s stands)
  · rfl

theorem change_of_eq {o : Roster} {id} {f : Standing → Standing} (same : ∀ s ∈ o.standing id, f s = s) :
    o.change id f = o := by
  refine (change_congr (g := fun s => s) same).trans (Roster.ext rfl (fun j => ?_) rfl rfl rfl)
  dsimp only [change]
  rw [Option.map_id', ite_self]

theorem move_of_eq {o : Roster} {f : Place → Place} (same : f (o.place c) = o.place c) : o.move c f = o := by
  refine Roster.ext rfl (fun _ => rfl) (ext_getElem? fun d => ?_) rfl rfl
  rw [move, getElem?_modify]
  by_cases here : c = d
  · subst here
    cases there : o.places[c]? with
    | none => rfl
    | some p =>
      rw [place, there] at same
      simpa using same
  · simp [here]

theorem place_of_length_le {o : Roster} (outside : o.places.length ≤ c) : o.place c = {} := by
  rw [place, getElem?_eq_none outside]
  rfl

theorem place_move (o : Roster) (c d) (f : Place → Place) :
    (o.move c f).place d = if c = d ∧ d < o.places.length then f (o.place d) else o.place d := by
  rw [place, place, move, getElem?_modify]
  by_cases here : c = d
  · by_cases inside : d < o.places.length
    · simp [here, inside]
    · simp [here, inside]
  · simp [here]

theorem standing_change (o : Roster) (id j) (f : Standing → Standing) :
    (o.change id f).standing j = if j = id then (o.standing j).map f else o.standing j := rfl

end Roster

namespace Machine

/-! ## What the roster shows of an interpreter and a context -/

theorem id_of_find? {m : Machine} {id} {i : Interpreter} (found : m.find? id = some i) : i.id = id := by
  simpa [find?] using find?_some found

theorem id_of_get? {m : Machine} {id} {i : Interpreter} (found : m.get? id = some i) : i.id = id :=
  id_of_find? (Option.filter_eq_some_iff.1 found).1

theorem id_modified {id} {f : Interpreter → Interpreter} (same : ∀ i, (f i).id = i.id) (i : Interpreter) :
    (if i.id == id then f i else i).id = i.id := by
  split
  · exact same i
  · rfl

section
variable (m : Machine)

theorem find?_modifyInterpreter (id j) {f : Interpreter → Interpreter} (same : ∀ i, (f i).id = i.id) :
    (m.modifyInterpreter id f).find? j = (m.find? j).map fun i => if j = id then f i else i := by
  have found : (m.modifyInterpreter id f).find? j = (m.find? j).map fun i => if i.id == id then f i else i := by
    rw [find?, modifyInterpreter, find?_map]
    congr 2
    funext i
    exact congrArg (· == j) (id_modified same i)
  rw [found]
  cases here : m.find? j with
  | none => rfl
  | some i => simp [id_of_find? here]

theorem roster_modifyInterpreter (id) {f : Interpreter → Interpreter} {g : Standing → Standing}
    (same : ∀ i, (f i).id = i.id) (stands : ∀ i, (f i).standing = g i.standing) :
    (m.modifyInterpreter id f).roster = m.roster.change id g := by
  refine Roster.ext ((map_map ..).trans (map_congr_left fun i _ => id_modified same i)) (fun j => ?_) rfl rfl rfl
  rw [Roster.standing_change]
  dsimp only [roster]
  rw [m.find?_modifyInterpreter id j same]
  cases m.find? j with
  | none => simp
  | some i =>
    by_cases at_id : j = id
    · simp [at_id, stands]
    · simp [at_id]

theorem roster_modifyInterpreter_of_eq (id) {f : Interpreter → Interpreter} (same : ∀ i, (f i).id = i.id)
    (stands : ∀ i, (f i).standing = i.standing) : (m.modifyInterpreter id f).roster = m.roster := by
  exact (roster_modifyInterpreter m id same stands).trans (Roster.change_of_eq fun _ _ => rfl)

theorem roster_modifyContext (c) {f : Context → Context} {g : Place → Place}
    (moves : ∀ x, (f x).place = g x.place) : (m.modifyContext c f).roster = m.roster.move c g := by
  refine Roster.ext rfl (fun _ => rfl) ?_ rfl rfl
  change (m.contexts.modify c f).map Context.place = (m.contexts.map Context.place).modify c g
  refine ext_getElem? fun d => ?_
  rw [getElem?_map, getElem?_modify, getElem?_modify, getElem?_map]
  cases m.contexts[d]? with
  | none => rfl
  | some x =>
    by_cases here : c = d
    · simp [here, moves]
    · simp [here]

theorem roster_modifyContext_of_eq (c) {f : Context → Context} (same : ∀ x, (f x).place = x.place) :
    (m.modifyContext c f).roster = m.roster :=
  have unmoved : ∀ x, (f x).place = id x.place := same
  (roster_modifyContext m c unmoved).trans (Roster.move_of_eq rfl)

theorem place_roster (c) : m.roster.place c = (m.context c).place := by
  rw [Roster.place, context]
  change ((m.contexts.map Context.place)[c]?).getD {} = _
  rw [getElem?_map]
  cases m.contexts[c]? <;> rfl

theorem current_roster (c) : (m.roster.place c).current = (m.context c).current :=
  congrArg Place.current (m.place_roster c)

theorem stage_roster (c) : (m.roster.place c).stage = (m.session c).stage := by
  rw [place_roster]
  rfl

theorem standing_roster (id) : m.roster.standing id = (m.find? id).map Interpreter.standing := rfl

theorem status_roster (id) : m.roster.status? id = (m.find? id).map Interpreter.status := by
  rw [Roster.status?, standing_roster, Option.map_map]
  rfl

/-! ## Leases, values and the log -/

@[simp]
theorem roster_note (level n) : (m.note level n).roster = m.roster := rfl

@[simp]
theorem roster_letGo (leases) : (m.letGo leases).roster = m.roster := by
  rw [letGo]
  induction leases generalizing m with
  | nil => rfl
  | cons l rest ih =>
    rw [foldl_cons, ih]
    split
    · exact roster_note m _ _
    · rfl

theorem roster_acquire (owner) : (m.acquire owner).1.roster = m.roster := by
  unfold acquire
  dsimp only
  split
  · exact roster_modifyInterpreter_of_eq _ owner (fun _ => rfl) (fun _ => rfl)
  · rfl

theorem roster_release (lease) : (m.release lease).roster = m.roster := by
  unfold release
  split
  · rfl
  · split
    · rfl
    · split
      · rfl
      · exact roster_modifyInterpreter_of_eq m _ (fun _ => rfl) (fun _ => rfl)

@[simp]
theorem roster_settle (kept) : (m.settle kept).roster = m.roster := by
  have released : ∀ (leases : List Lease) (m : Machine), (leases.foldl release m).roster = m.roster := by
    intro leases
    induction leases with
    | nil => exact fun _ => rfl
    | cons l rest ih =>
      intro m
      rw [foldl_cons, ih]
      exact roster_release m l
  unfold settle
  split
  · rfl
  · exact released _ _

@[simp]
theorem roster_snapshot (source v full) : (m.snapshot source v full).1.roster = m.roster := by
  unfold snapshot
  split
  · exact roster_acquire m _
  · rfl

@[simp]
theorem roster_bind (id name v) : (m.bind id name v).roster = m.roster := by
  rw [bind, roster_letGo]
  exact roster_modifyInterpreter_of_eq m id (fun _ => rfl) (fun _ => rfl)

@[simp]
theorem roster_bindAll (id bindings) : (m.bindAll id bindings).roster = m.roster := by
  rw [bindAll]
  induction bindings generalizing m with
  | nil => rfl
  | cons b rest ih =>
    rw [foldl_cons, ih]
    exact roster_bind m id b.1 b.2

@[simp]
theorem roster_keep (name v) : (m.keep name v).roster = m.roster := by
  cases name with
  | none => rfl
  | some name => exact roster_letGo _ _

@[simp]
theorem roster_dropHeld (name) : (m.dropHeld name).roster = m.roster := roster_letGo _ _

@[simp]
theorem roster_register (name f) : (m.register name f).roster = m.roster :=
  roster_letGo _ _

@[simp]
theorem roster_useSnapshot (i s purpose name) : (m.useSnapshot i s purpose name).1.roster = m.roster := by
  unfold useSnapshot
  cases purpose with
  | value =>
    dsimp only
    split
    · exact roster_keep m name _
    · rfl
  | script => rfl
  | release => rfl

/-! ## Interpreters and references -/

theorem roster_endInterpreter (id) : (m.endInterpreter id).roster = m.roster.mark id .destroyed := by
  unfold endInterpreter
  dsimp only
  rw [roster_note, roster_letGo]
  exact roster_modifyInterpreter m id (fun _ => rfl) (fun _ => rfl)

theorem roster_addRef (id link) : (m.addRef id link).roster = m.roster.addRef id link :=
  roster_modifyInterpreter m id (fun _ => rfl) (fun _ => rfl)

/-- Dropping a reference. What ends the interpreter is read off after the count has gone down. -/
theorem roster_dropRef (id ending) : (m.dropRef id ending).roster = m.roster.dropRef id ending := by
  have fewer : (m.modifyInterpreter id fun i => { i with refs := i.refs - 1 }).roster =
      m.roster.change id fun s => { s with refs := s.refs - 1 } :=
    roster_modifyInterpreter m id (fun _ => rfl) (fun _ => rfl)
  unfold dropRef
  dsimp only
  generalize m.modifyInterpreter id (fun i => { i with refs := i.refs - 1 }) = m' at fewer ⊢
  have stands : (m.roster.standing id).map (fun s => { s with refs := s.refs - 1 }) = (m'.find? id).map (·.standing) := by
    rw [← standing_roster, fewer, Roster.standing_change, if_pos rfl]
  cases found : m'.find? id with
  | none =>
    rw [found] at stands
    have absent : m.roster.standing id = none := Option.map_eq_none_iff.1 stands
    refine fewer.trans (Roster.change_congr fun s here => ?_)
    rw [absent] at here
    exact absurd here (Option.not_mem_none s)
  | some i =>
    rw [found] at stands
    obtain ⟨s, there, same⟩ := Option.map_eq_some_iff.1 stands
    have refs : i.refs = s.refs - 1 := congrArg Standing.refs same.symm
    have requires : i.requiresRefs = s.requiresRefs := congrArg Standing.requiresRefs same.symm
    have status : i.status = s.status := congrArg Standing.status same.symm
    -- only the way `s` itself stands matters to a change at `id`
    have only : ∀ {f g : Standing → Standing}, f s = g s → m.roster.change id f = m.roster.change id g := by
      intro f g agree
      refine Roster.change_congr fun r here => ?_
      rw [there] at here
      exact Option.some.inj here ▸ agree
    dsimp only
    split
    · next last =>
      rw [refs, requires] at last
      split
      · next running =>
        have running : s.status = .running := by simpa [Interpreter.isRunning, status] using running
        refine fewer.trans (only ?_)
        simp [running]
      · next stopped =>
        split
        · next lives =>
          have ready : s.status = .ready := by
            simp only [Interpreter.isRunning, Interpreter.isReady, status] at stopped lives
            cases here : s.status <;> simp_all
          rw [roster_endInterpreter, fewer, Roster.mark, Roster.change_change]
          refine only ?_
          simp [last, ready]
        · next gone =>
          have gone : s.status = .destroyed := by simpa [Interpreter.isReady, status] using gone
          refine fewer.trans (only ?_)
          simp [gone]
    · next more =>
      rw [refs, requires] at more
      refine fewer.trans (only ?_)
      rw [if_neg fun all => more ⟨all.1, all.2.1, all.2.2.1⟩]

theorem roster_keepHandle (name h) : (m.keepHandle name h).roster = m.roster.keepHandle name h := by
  unfold keepHandle Roster.keepHandle
  dsimp only
  change _ = match m.handles.get? name with
    | some old => _
    | none => _
  cases m.handles.get? name with
  | none => rfl
  | some old => exact roster_dropRef _ old.id old.owning

end

theorem roster_newInterpreter {m m' : Machine} {config whence id} (made : m.newInterpreter config whence = .ok (m', id)) :
    m'.roster = m.roster.create whence ∧ id = m.roster.nextId := by
  unfold newInterpreter at made
  split at made
  · cases made
  · cases made
    refine ⟨Roster.ext ?_ (fun j => ?_) rfl rfl rfl, rfl⟩
    · exact map_append
    · change ((m.interpreters ++ [_]).find? fun i : Interpreter => i.id == j).map Interpreter.standing = _
      rw [find?_append, find?_singleton]
      dsimp only [Roster.create]
      rw [standing_roster, find?]
      cases m.interpreters.find? fun i : Interpreter => i.id == j with
      | some i => rfl
      | none =>
        by_cases here : m.nextId = j
        · subst here
          simp [roster, Interpreter.standing]
        · simp [roster, here, Ne.symm here]

/-! ## Sessions -/

theorem roster_switch (m : Machine) (c id) :
    (m.switch c id).roster = m.roster.move c fun p => { p with current := id } :=
  (roster_modifyContext _ c fun _ => rfl).trans (by rw [roster_note])

theorem roster_setIdle (m : Machine) (id) : (m.setIdle id).roster = m.roster.rest id := by
  refine roster_modifyInterpreter m id (fun i => ?_) (fun i => ?_)
  · split <;> rfl
  · by_cases running : i.status = .running
    · simp [Interpreter.isRunning, Interpreter.standing, running]
    · simp [Interpreter.isRunning, Interpreter.standing, running]

theorem roster_setSession (m : Machine) (c) (s : Option Session) :
    (m.setSession c s).roster = m.roster.move c fun p => { p with stage := (s.getD {}).stage } :=
  roster_modifyContext m c fun _ => rfl

theorem roster_setRunning {m m' : Machine} {id} (marked : m.setRunning id = .ok m') :
    m.roster.status? id = some .ready ∧ m'.roster = m.roster.mark id .running := by
  unfold setRunning at marked
  split at marked
  · next ready =>
    cases marked
    exact ⟨(status_roster m id).trans ready, roster_modifyInterpreter m id (fun _ => rfl) (fun _ => rfl)⟩
  · cases marked
  · cases marked

end Machine
end MonitoredVm
