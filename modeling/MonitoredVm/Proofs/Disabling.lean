import MonitoredVm.Proofs.Histories

/-!
# Disabling

Where a tool is out because it asked to be, told from what happened. An answer that disables takes the tool out where
the event fired and, for a callback registered for `BRANCH`, at the slot of the other direction; a tool that enters
again is no longer out anywhere.
-/

namespace MonitoredVm

namespace Code

/-- The slots of a branch report its directions. -/
structure Reports (c : Code) (site : BranchSite) : Prop where
  left : ∀ i, site.left = some i → (c.opcodeAt i).event? (c.oparg i) = some .branchLeft
  right : ∀ i, site.right = some i → (c.opcodeAt i).event? (c.oparg i) = some .branchRight

theorem opcodeAt_of_isAt {c : Code} (h : c.isAt i op = true) : c.opcodeAt i = op := by
  simp only [isAt, Bool.and_eq_true, beq_iff_eq] at h
  exact h.2

theorem event_of_notTaken {c : Code} (h : (if c.isAt i .notTaken then some i else none) = some j) :
    (c.opcodeAt j).event? (c.oparg j) = some .branchLeft := by
  split at h
  next at_i =>
    cases h
    rw [opcodeAt_of_isAt at_i]
    rfl
  next => cases h

theorem reports_of_branchSiteAt {c : Code} (h : c.branchSiteAt? j = some (source, site)) : c.Reports site := by
  have jump : (c.opcodeAt j).event? (c.oparg j) = some .branchRight →
      c.Reports ⟨if c.isAt (c.next j) .notTaken then some (c.next j) else none, some j⟩ := fun event =>
    ⟨fun _ left => event_of_notTaken left, fun _ right => Option.some.inj right ▸ event⟩
  unfold branchSiteAt? at h
  dsimp only at h
  split at h
  next op => cases h; exact jump (by rw [op]; rfl)
  next op => cases h; exact jump (by rw [op]; rfl)
  next op => cases h; exact jump (by rw [op]; rfl)
  next op => cases h; exact jump (by rw [op]; rfl)
  next op =>
    cases h
    refine ⟨fun i left => ?_, fun i right => ?_⟩
    · cases left
      rw [op]
      rfl
    · have at_i := (Option.filter_eq_some_iff.1 right).2
      rw [opcodeAt_of_isAt at_i]
      rfl
  next op =>
    obtain ⟨source, -, same⟩ := Option.map_eq_some_iff.1 h
    cases same
    exact ⟨fun _ left => event_of_notTaken left, fun _ right => by
      cases right
      rw [op]
      rfl⟩
  next => cases h

theorem reports_of_branchSite {c : Code} (h : c.branchSite? source = some site) : c.Reports site := by
  obtain ⟨⟨_, _⟩, found, rfl⟩ := Option.map_eq_some_iff.1 h
  have mem := List.mem_reverse.1 (List.mem_of_find?_eq_some found)
  obtain ⟨j, -, here⟩ := List.mem_filterMap.1 mem
  exact reports_of_branchSiteAt here

end Code

namespace Call

theorem event_of_sibling {c : Call} {code : Code} (h : c.sibling? code = some (i, e)) :
    (code.opcodeAt i).event? (code.oparg i) = some e := by
  unfold sibling? at h
  split at h
  next right _ _ =>
    obtain ⟨site, found, h⟩ := Option.bind_eq_some_iff.1 h
    have reports := Code.reports_of_branchSite found
    split at h
    next =>
      obtain ⟨j, left, same⟩ := Option.map_eq_some_iff.1 h
      cases same
      exact reports.left _ left
    next =>
      obtain ⟨j, right, same⟩ := Option.map_eq_some_iff.1 h
      cases same
      exact reports.right _ right
  next => cases h

/-- The answer takes its tool out of `e` at the slot `i`. -/
def hits (c : Call) (code : Code) (l : Layer) (i : Nat) (e : Event) : Bool :=
  (c.disables && decide (c.layer = l ∧ c.slot = i ∧ c.args.event = e)) ||
    decide (l = .opcode ∧ c.sibling? code = some (i, e))

end Call

theorem Act.event_of_opcodeEvent (h : opcodeEvent? code i prev taken = some (e, reported, payload)) :
    (code.opcodeAt i).event? (code.oparg i) = some e := by
  unfold opcodeEvent? at h
  dsimp only at h
  split at h
  all_goals first
    | (cases h; simp only [Opcode.event?, *])
    | (split at h <;> cases h <;> simp only [Opcode.event?, *])
    | cases h

/-- Local events are reported from slots that have them. -/
def Discipline.slots : Discipline where
  allows code l i e := e.isLocal = true →
    match l with
    | .opcode => (code.opcodeAt i).event? (code.oparg i) = some e
    | .line => e = .line
    | .instruction => e = .instruction
  loose e := !e.isLocal
  opcode h _ := Act.event_of_opcodeEvent h
  line _ _ _ := rfl
  instruction _ _ _ := rfl
  fired loose _ _ isLocal := by simp [isLocal] at loose

theorem Discipline.event_eq (event : code.eventAt l i = some e) (isLocal : e'.isLocal = true)
    (allowed : Discipline.slots.allows code l i e') : e' = e := by
  have fits := allowed isLocal
  cases l with
  | opcode => exact Option.some.inj (fits.symm.trans (Code.eventAt_opcode event))
  | line => exact fits.trans (Code.eventAt_line event).symm
  | instruction => exact fits.trans (Code.eventAt_instruction event).symm

namespace CodeState

/-- Taking tools out changes the cell they are taken out of, also where nothing watches yet. -/
theorem Formed.cell_remove {code : Code} {s : CodeState} (h : s.Formed code) (event : code.eventAt l i = some e)
    (k j ev tools) : (s.remove k j ev tools).cell l i =
      if l = k ∧ i = j then (s.cell l i).remove (s.active ev) tools else s.cell l i := by
  cases data : s.data with
  | some d => exact CodeState.cell_remove (by rw [data]; rfl) k l j i ev tools
  | none =>
    have off : (s.cell l i).armed = false := by
      refine Bool.eq_false_iff.2 fun on => (h.tame event).armed on ?_
      simp [active, data]
    have none_there : (s.cell l i).entry = none := by simp [cell, data]
    rw [Cell.remove_of_off off none_there, ite_self, CodeState.remove, data]

/-- The code object with an answer noted and its tool taken out of the other direction. -/
def heedSibling (s : CodeState) (code : Code) (c : Call) : CodeState :=
  match c.sibling? code with
  | some (slot, event) =>
    ({ s with history := .answered c :: s.history } : CodeState).remove .opcode slot event (ToolMask.single c.args.tool)
  | none => { s with history := .answered c :: s.history }

theorem heed_eq (s : CodeState) (code) (c : Call) :
    s.heed code c =
      if c.disables && c.args.event.isLocal then
        (s.heedSibling code c).remove c.layer c.slot c.args.event (ToolMask.single c.args.tool)
      else s.heedSibling code c := by
  unfold heed heedSibling
  cases c.sibling? code <;> rfl

theorem Formed.heedSibling {s : CodeState} (h : s.Formed code) (c) : (s.heedSibling code c).Formed code := by
  unfold CodeState.heedSibling
  split
  next => exact (h.noted _ s.changes).remove ..
  next => exact h.noted _ s.changes

theorem active_heedSibling (s : CodeState) (code c e) : (s.heedSibling code c).active e = s.active e := by
  unfold heedSibling
  split
  next => exact active_of_outline (outline_remove ..) e
  next => rfl

theorem cell_heedSibling {code : Code} {s : CodeState} (formed : s.Formed code) (c : Call)
    (event : code.eventAt l i = some e) : (s.heedSibling code c).cell l i =
      if l = .opcode ∧ c.sibling? code = some (i, e) then
        (s.cell l i).remove (s.active e) (ToolMask.single c.args.tool)
      else s.cell l i := by
  unfold heedSibling
  cases sibling : c.sibling? code with
  | none => simp [cell, slot]
  | some other =>
    obtain ⟨slot, ev⟩ := other
    refine ((formed.noted _ s.changes).cell_remove event .opcode slot ev _).trans ?_
    by_cases here : l = .opcode ∧ i = slot
    · obtain ⟨rfl, rfl⟩ := here
      -- the slot of the other direction has the event of that direction
      obtain rfl : ev = e := Option.some.inj ((Call.event_of_sibling sibling).symm.trans (Code.eventAt_opcode event))
      rw [if_pos ⟨rfl, rfl⟩, if_pos ⟨rfl, rfl⟩]
      rfl
    · rw [if_neg here, if_neg fun hit => here ⟨hit.1, (Prod.mk.inj (Option.some.inj hit.2)).1.symm⟩]
      rfl

theorem cell_heed {code : Code} {s : CodeState} (formed : s.Formed code) {c : Call}
    (allowed : Discipline.slots.allows code c.layer c.slot c.args.event) (event : code.eventAt l i = some e) :
    (s.heed code c).cell l i =
      if c.hits code l i e then (s.cell l i).remove (s.active e) (ToolMask.single c.args.tool) else s.cell l i := by
  have first := cell_heedSibling formed c event
  have second := (formed.heedSibling c).cell_remove event c.layer c.slot c.args.event (ToolMask.single c.args.tool)
  rw [heed_eq]
  by_cases own : c.disables = true ∧ c.layer = l ∧ c.slot = i ∧ c.args.event = e
  · obtain ⟨disables, rfl, rfl, rfl⟩ := own
    have hit : c.hits code c.layer c.slot c.args.event = true := by simp [Call.hits, disables]
    rw [if_pos (by simp [disables, Code.isLocal_eventAt event]), second, if_pos ⟨rfl, rfl⟩, active_heedSibling, first,
      if_pos hit]
    split
    · exact Cell.remove_remove ..
    · rfl
  · have missed : ∀ isLocal : (c.disables && c.args.event.isLocal) = true, ¬ (l = c.layer ∧ i = c.slot) := by
      rintro both ⟨rfl, rfl⟩
      obtain ⟨disables, isLocal⟩ := Bool.and_eq_true_iff.1 both
      exact own ⟨disables, rfl, rfl, Discipline.event_eq event isLocal allowed⟩
    have unchanged : (if c.disables && c.args.event.isLocal then
        (s.heedSibling code c).remove c.layer c.slot c.args.event (ToolMask.single c.args.tool)
        else s.heedSibling code c).cell l i = (s.heedSibling code c).cell l i := by
      split
      next both => rw [second, if_neg (missed both)]
      next => rfl
    have hits : c.hits code l i e = decide (l = .opcode ∧ c.sibling? code = some (i, e)) := by
      simp only [Call.hits]
      cases disables : c.disables with
      | false => rfl
      | true => simp only [Bool.true_and, decide_eq_false fun h => own ⟨disables, h⟩, Bool.false_or]
    rw [unchanged, first, hits]
    simp only [decide_eq_true_eq]

end CodeState

/-- The tools out of `e` at a slot, told from the history: those that disabled it there and have not entered since. -/
def disabledAt (code : Code) (l : Layer) (i : Nat) (e : Event) : List Happening → ToolMask
  | [] => 0
  | .aligned a :: before => (disabledAt code l i e before).without (LocalMonitors.get a.added e)
  | .answered c :: before =>
    if c.hits code l i e then disabledAt code l i e before ||| ToolMask.single c.args.tool
    else disabledAt code l i e before

/-- An alignment so far has called for the table of the layer that reports `e`. -/
def madeTable (l : Layer) (e : Event) : List Happening → Bool
  | [] => false
  | .aligned a :: before => madeTable l e before || a.callsForTable l e
  | .answered _ :: before => madeTable l e before

/-- A property of the cells and the history of monitored code that alignments and answers keep. -/
structure Kept (inv : Code → CodeState → Prop) : Prop where
  fresh : ∀ code, inv code (CodeState.ofCode code)
  preset : ∀ {code : Code} {s : CodeState} (own : LocalMonitors) (stamps : Vector Nat 8),
    inv code s → inv code (s.preset own stamps)
  reported : ∀ {code : Code} {s : CodeState} (changes : List SlotChange), inv code s → inv code { s with changes }
  realigned : ∀ {e : Engine} {code : Code} {s s' : CodeState}, s.Formed code → s.Realigned e code s' →
    inv code s → inv code s'
  faulted : ∀ {e : Engine} {code : Code} {s s' : CodeState}, s.Formed code → s.Faulted e code s' →
    inv code s → inv code s'
  heeded : ∀ {code : Code} {s : CodeState} {c : Call}, s.Formed code →
    Discipline.slots.allows code c.layer c.slot c.args.event → inv code s → inv code (s.heed code c)

namespace Kept
variable {inv : Code → CodeState → Prop}

theorem force (h : Kept inv) {e : Engine} {code : Code} {s : CodeState} (grid : code.OnGrid) (formed : s.Formed code)
    (holds : inv code s) : inv code (e.force code s).1 := by
  cases monitored : code.noMonitoring with
  | true =>
    rw [Engine.force, if_pos monitored]
    exact holds
  | false =>
    rcases CodeState.force_cases e monitored grid formed.sized formed.lined with ⟨-, r⟩ | ⟨-, f⟩
    · exact h.realigned formed r holds
    · exact h.faulted formed f holds

theorem invariant_of (h : Kept inv) (heeded : ∀ {code : Code} {s : CodeState} {c : Call}, s.Formed code →
      rule.allows code s c → inv code s → inv code (s.heed code c)) :
    Invariant rule fun e code s => Sound e code s ∧ inv code s where
  fresh spec begun := ⟨(invariant_sound rule).fresh spec begun, h.fresh _⟩
  alike := by
    rintro e e' code s s' engine alike ⟨sound, holds⟩
    refine ⟨(invariant_sound rule).alike engine alike sound, ?_⟩
    obtain ⟨changes, rfl⟩ := alike
    exact h.reported changes holds
  govern := fun moved ⟨sound, holds⟩ => ⟨(invariant_sound rule).govern moved sound, holds⟩
  move := by
    rintro e code s s' m ⟨sound, holds⟩
    refine ⟨(invariant_sound rule).move m sound, ?_⟩
    cases m with
    | forced => exact h.force sound.grid sound.formed holds
    | stamped stamps => exact h.preset _ stamps holds
    | localSet own stamps => exact h.force sound.grid (sound.formed.preset own stamps) (h.preset own stamps holds)
    | answered allowed => exact heeded sound.formed allowed holds

theorem invariant (h : Kept inv) : Invariant Discipline.slots fun e code s => Sound e code s ∧ inv code s :=
  h.invariant_of fun formed allowed holds => h.heeded formed allowed holds

theorem reached (h : Kept inv) {w : World} (reached : w.Reached fun e => !e.isLocal) (current : w.Current c code s) :
    Sound w.engine code s ∧ inv code s := by
  have all := (h.invariant.reached reached).2 c current.there
  rwa [current.code_eq, current.state_eq] at all

end Kept
end MonitoredVm
