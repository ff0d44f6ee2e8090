import MonitoredVm.Proofs.Hearing

/-!
# Disabling a branch

A branch has two slots, one for each direction, and a callback registered for `BRANCH` that disables the branch in one
direction is taken out of both. It is not called for the branch again before its tool enters one of the directions anew.
No other tool is taken out of anything; but a callback of another tool that is itself registered for `BRANCH` misses what
the deciding instruction no longer tells.

Main statement: `branch_disabling`. It is read off the history: an answer hits both slots (`Call.hits_branch`), what is
disabled stays so until the tool enters (`entered_of_enabled`), and no tool is called where it is out (`Told`).
-/

namespace MonitoredVm

open List

namespace Code

/-- The branches of a code object: the instruction that decides, and the slots that report left and right. -/
inductive BranchAt (c : Code) : (source left right : Nat) → Prop
  | conditional {i} : i ∈ c.offsetsFrom 0 →
    c.opcodeAt i ∈ [.popJumpIfFalse, .popJumpIfTrue, .popJumpIfNone, .popJumpIfNotNone] →
    c.isAt (c.next i) .notTaken = true → BranchAt c i (c.next i) i
  | loop {i j} : i ∈ c.offsetsFrom 0 → c.opcodeAt i = .forIter → c.jumpTarget i = some j →
    c.isAt j .popIter = true → BranchAt c i i j
  | async {i source} : i ∈ c.offsetsFrom 0 → c.opcodeAt i = .endAsyncFor → c.isAt source .endSend = true →
    source + c.oparg i = c.next i → c.isAt (source + 1) .notTaken = true → BranchAt c source (source + 1) i

/-- No two instructions close a branch decided at `source`. -/
def ClosedOnce (c : Code) (source : Nat) : Prop :=
  ∀ i ∈ c.offsetsFrom 0, ∀ j ∈ c.offsetsFrom 0, (c.branchSiteAt? i).map Prod.fst = some source →
    (c.branchSiteAt? j).map Prod.fst = some source → i = j

instance decidableClosedOnce (c : Code) (source : Nat) : Decidable (c.ClosedOnce source) :=
  inferInstanceAs (Decidable (∀ i ∈ c.offsetsFrom 0, ∀ j ∈ c.offsetsFrom 0,
    (c.branchSiteAt? i).map Prod.fst = some source → (c.branchSiteAt? j).map Prod.fst = some source → i = j))

variable {c : Code} {source left right : Nat}

theorem BranchAt.closed (branch : c.BranchAt source left right) :
    ∃ i ∈ c.offsetsFrom 0, c.branchSiteAt? i = some (source, ⟨some left, some right⟩) := by
  cases branch with
  | conditional inside jump skip =>
    refine ⟨_, inside, ?_⟩
    simp only [mem_cons, not_mem_nil, or_false] at jump
    rcases jump with op | op | op | op <;> simp only [branchSiteAt?, op, skip, if_true]
  | loop inside op target exit =>
    exact ⟨_, inside, by simp [branchSiteAt?, op, target, exit]⟩
  | async inside op _ back skip =>
    have found : subtract? (c.next right) (c.oparg right) = some source := by
      rw [subtract?, if_pos (by omega)]
      exact congrArg some (by omega)
    exact ⟨right, inside, by simp [branchSiteAt?, op, found, skip]⟩

theorem ClosedOnce.branchSite (once : c.ClosedOnce source) (inside : i ∈ c.offsetsFrom 0)
    (closes : c.branchSiteAt? i = some (source, site)) : c.branchSite? source = some site := by
  have listed : (source, site) ∈ ((c.offsetsFrom 0).filterMap c.branchSiteAt?).reverse :=
    mem_reverse.2 (mem_filterMap.2 ⟨i, inside, closes⟩)
  unfold branchSite?
  cases found : ((c.offsetsFrom 0).filterMap c.branchSiteAt?).reverse.find? (·.1 == source) with
  | none => exact absurd (beq_self_eq_true source) (find?_eq_none.1 found _ listed)
  | some entry =>
    have same : entry.1 = source := by simpa using find?_some found
    obtain ⟨j, inside', closes'⟩ := mem_filterMap.1 (mem_reverse.1 (mem_of_find?_eq_some found))
    obtain rfl : i = j := once i inside j inside' (by rw [closes]; rfl) (by rw [closes', Option.map_some, same])
    obtain rfl := Option.some.inj (closes.symm.trans closes')
    rfl

theorem BranchAt.site (branch : c.BranchAt source left right) (once : c.ClosedOnce source) :
    c.branchSite? source = some ⟨some left, some right⟩ := by
  obtain ⟨i, inside, closes⟩ := branch.closed
  exact once.branchSite inside closes

theorem BranchAt.reports (branch : c.BranchAt source left right) : c.Reports ⟨some left, some right⟩ := by
  obtain ⟨i, -, closes⟩ := branch.closed
  exact reports_of_branchSiteAt closes

end Code

theorem Told.opcode (told : Told code c earlier) (event : c.args.event = Event.direction right) :
    c.layer = .opcode ∧ (code.opcodeAt c.slot).event? (code.oparg c.slot) = some c.args.event := by
  have isLocal : c.args.event.isLocal = true := by
    rw [event]
    cases right <;> rfl
  have fits := told.slot isLocal
  cases layer : c.layer with
  | opcode => exact ⟨rfl, by rw [layer] at fits; exact fits⟩
  | line | instruction =>
    rw [layer] at fits
    rw [event] at fits
    cases right <;> cases fits

theorem Told.hits_branch (told : Told code c earlier) (branch : code.BranchAt c.args.offset left right)
    (once : code.ClosedOnce c.args.offset) (callback : c.callable = .branch k side) (reached : c.reached = true)
    (disables : c.disables = true) (here : c.slot = left ∨ c.slot = right) :
    c.hits code .opcode left .branchLeft = true ∧ c.hits code .opcode right .branchRight = true := by
  have direction := told.direction k side callback
  obtain ⟨layer, event⟩ := told.opcode direction
  have reports := branch.reports
  have sibling : c.sibling? code = if side then some (left, .branchLeft) else some (right, .branchRight) := by
    unfold Call.sibling?
    simp only [callback, reached, disables, branch.site once]
    rfl
  cases side with
  | true =>
    have slot : c.slot = right := by
      refine here.resolve_left fun same => ?_
      rw [same, reports.left left rfl, direction] at event
      cases event
    constructor
    · simp [Call.hits, sibling]
    · simp [Call.hits, disables, layer, slot, direction, Event.direction]
  | false =>
    have slot : c.slot = left := by
      refine here.resolve_right fun same => ?_
      rw [same, reports.right right rfl, direction] at event
      cases event
    constructor
    · simp [Call.hits, disables, layer, slot, direction, Event.direction]
    · simp [Call.hits, sibling]

/-- The tool enters the event: it has the event enabled now, and had not or starts over. -/
def Alignment.Enters (a : Alignment) (t : Nat) (e : Event) : Prop :=
  (LocalMonitors.get a.after e).has t = true ∧ (a.restarted = true ∨ (LocalMonitors.get a.before e).has t = false)

theorem Alignment.enters_of_added {a : Alignment} (added : (LocalMonitors.get a.added e).has t = true) :
    a.Enters t e := by
  unfold Alignment.added at added
  split at added
  next restarted => exact ⟨added, .inl restarted⟩
  next =>
    rw [LocalMonitors.get_sub, ToolMask.has_without] at added
    obtain ⟨now, before⟩ := Bool.and_eq_true_iff.1 added
    exact ⟨now, .inr (by simpa using before)⟩

theorem entered_of_enabled (out : (disabledAt code l i e earlier).has t = true)
    (enabled : (disabledAt code l i e (between ++ earlier)).has t = false) :
    ∃ a, .aligned a ∈ between ∧ a.Enters t e := by
  induction between with
  | nil => cases out.symm.trans enabled
  | cons x between ih =>
    cases still : (disabledAt code l i e (between ++ earlier)).has t with
    | false =>
      obtain ⟨a, inside, enters⟩ := ih still
      exact ⟨a, mem_cons_of_mem _ inside, enters⟩
    | true =>
      cases x with
      | aligned a =>
        rw [cons_append, disabledAt, ToolMask.has_without, still] at enabled
        exact ⟨a, mem_cons_self, Alignment.enters_of_added (by simpa using enabled)⟩
      | answered c =>
        rw [cons_append, disabledAt] at enabled
        split at enabled
        · simp [still] at enabled
        · cases still.symm.trans enabled

theorem disabledAt_hit (hit : c.hits code l i e = true) (tool : c.args.tool < 8) (earlier) :
    (disabledAt code l i e (.answered c :: earlier)).has c.args.tool = true := by
  simp [disabledAt, hit, tool]

theorem activeAfter_without (e c later earlier) :
    activeAfter e (later ++ .answered c :: earlier) = activeAfter e (later ++ earlier) := by
  induction later with
  | nil => rfl
  | cons x later ih =>
    cases x with
    | aligned a => rfl
    | answered c' => exact ih

theorem disabledAt_without (other : c.args.tool ≠ t) (later earlier) :
    (disabledAt code l i e (later ++ .answered c :: earlier)).has t = (disabledAt code l i e (later ++ earlier)).has t := by
  induction later with
  | nil => exact disabledAt_answered_of_ne other
  | cons x later ih =>
    cases x with
    | aligned a => simp only [cons_append, disabledAt, ToolMask.has_without, ih]
    | answered c' =>
      simp only [cons_append, disabledAt]
      split
      · simp only [ToolMask.has_or, ih]
      · exact ih

/-- Disabling a branch. A callback that a tool registered for `BRANCH` was called in a direction of a branch, and disabled
it. A later call of the tool in either direction comes only after the tool entered that direction, anew or in a restart.
The other tools called for the instructions are those that would be without that answer; and a call that another tool's
`BRANCH` callback misses is one whose deciding instruction that tool does not watch, or has disabled itself. -/
theorem branch_disabling {w : World} (reached : w.Reached fun e => !e.isLocal) {i : Nat} (there : i < w.codes.size)
    {later earlier : List Happening} {c : Call} (history : (w.entry i).state.history = later ++ .answered c :: earlier)
    {k : Nat} {side : Bool} (callback : c.callable = .branch k side) (heard : c.reached = true)
    (disables : c.disables = true) {left right : Nat} (branch : (w.entry i).code.BranchAt c.args.offset left right)
    (once : (w.entry i).code.ClosedOnce c.args.offset) (here : c.slot = left ∨ c.slot = right) :
    (∀ newer c' between, later = newer ++ .answered c' :: between → c'.args.tool = c.args.tool →
      (c'.slot = left ∨ c'.slot = right) → (∃ side', c'.args.event = Event.direction side') →
      ∃ a, .aligned a ∈ between ∧ a.Enters c.args.tool c'.args.event) ∧
    (∀ u, u ≠ c.args.tool → ∀ j e, (w.entry i).code.eventAt .opcode j = some e →
      ((w.entry i).state.stepTools w.engine.globals .opcode j e).has u =
        (((w.entry i).state.active e).has u && !(disabledAt (w.entry i).code .opcode j e (later ++ earlier)).has u)) ∧
    ∀ newer c' between, later = newer ++ .answered c' :: between → c'.args.tool ≠ c.args.tool → c'.reached = false →
      ∀ e, (w.entry i).code.eventAt .opcode c'.args.offset = some e →
        (activeAfter e (between ++ earlier)).has c'.args.tool = false ∨
          (disabledAt (w.entry i).code .opcode c'.args.offset e (between ++ earlier)).has c'.args.tool = true := by
  have each := reached.told there
  rw [history] at each
  have told := each.of_append
  obtain ⟨hitsLeft, hitsRight⟩ := told.hits_branch branch once callback heard disables here
  refine ⟨?_, ?_, ?_⟩
  · rintro newer c' between rfl same_tool slot ⟨side', direction⟩
    rw [List.append_assoc, List.cons_append] at each
    have told' := each.of_append
    obtain ⟨layer, event⟩ := told'.opcode direction
    have enabled := told'.enabled layer (by rw [direction]; cases side' <;> rfl)
    rw [same_tool] at enabled
    have hit : c.hits (w.entry i).code .opcode c'.slot c'.args.event = true := by
      rcases slot with slot | slot
      · rw [slot, branch.reports.left left rfl] at event
        rw [slot, ← Option.some.inj event]
        exact hitsLeft
      · rw [slot, branch.reports.right right rfl] at event
        rw [slot, ← Option.some.inj event]
        exact hitsRight
    exact entered_of_enabled (disabledAt_hit hit told.tool earlier) enabled
  · intro u other j e event
    obtain ⟨-, exact_there⟩ := (CodeState.kept_opcodesExact.invariant.reached reached).2 i there
    rw [CodeState.stepTools_opcode _ _ _ (Code.isLocal_eventAt event), (exact_there j e event).calls_eq,
      ToolMask.has_without, history, disabledAt_without (Ne.symm other)]
  · rintro newer c' between rfl other missed e event
    rw [List.append_assoc, List.cons_append] at each
    have silent := congrArg (ToolMask.has · c'.args.tool) (each.of_append.missed missed e event)
    simp only [activeAfter_without, ToolMask.has_without, disabledAt_without (Ne.symm other)] at silent
    cases active : (activeAfter e (between ++ earlier)).has c'.args.tool with
    | false => exact .inl rfl
    | true =>
      rw [active] at silent
      exact .inr (by simpa using silent)

/-- The call recorded at a place of a history, the latest first. -/
def answeredAt? (history : List Happening) (n : Nat) : Option Call :=
  match history[n]? with
  | some (.answered c) => some c
  | _ => none

theorem split_of_answeredAt (found : answeredAt? history n = some c) :
    history = history.take n ++ .answered c :: history.drop (n + 1) := by
  unfold answeredAt? at found
  split at found
  next c' there =>
    cases found
    obtain ⟨inside, is_answer⟩ := List.getElem?_eq_some_iff.1 there
    rw [← is_answer, ← drop_eq_getElem_cons inside, take_append_drop]
  next => cases found

/-- Two tools watch a conditional jump through `BRANCH`. The first one disables it when it jumps, is left out when the
jump is next not taken, and is back after a restart. -/
def branchDisabled : World :=
  World.after
    [{ steps := [.emit .resume (.literal 0), .jump .popJumpIfFalse "out", .emit .notTaken (.literal 0), .patch "out",
        .emit .returnValue (.literal 0)] }]
    [.scripted [.disable] [] 0, .scripted [] [] 0] .error
    [.control (.useTool 0 "first"), .control (.useTool 1 "second"),
      .control (.register 0 (EventSet.single .branch) (some 0)), .control (.register 1 (EventSet.single .branch) (some 1)),
      .control (.setEvents 0 (EventSet.single .branch)), .control (.setEvents 1 (EventSet.single .branch)),
      .thread 0 (.step 0 1 none true), .thread 0 (.step 0 3 (some 1) false), .control (.restart 1),
      .thread 0 (.step 0 3 (some 1) false)]

/-- The first tool enters the other direction before it is called there, and the second one is called all along. -/
theorem branch_disabling_restarted :
    (∃ a, .aligned a ∈ ((branchDisabled.entry 0).state.history.take 4).drop 1 ∧ a.Enters 0 .branchLeft) ∧
      ((branchDisabled.entry 0).state.stepTools branchDisabled.engine.globals .opcode 3 .branchLeft).has 1 = true := by
  have reached : branchDisabled.Reached fun e => !e.isLocal := ⟨_, _, _, _, by decide, rfl⟩
  have branch : (branchDisabled.entry 0).code.BranchAt 1 3 1 := by
    have next : (branchDisabled.entry 0).code.next 1 = 3 := by decide +kernel
    rw [← next]
    exact .conditional (by decide +kernel) (by decide +kernel) (by decide +kernel)
  have once : (branchDisabled.entry 0).code.ClosedOnce 1 := by decide +kernel
  obtain ⟨c, found, is_disabling⟩ := (Option.any_eq_true _ _).1
    (show (answeredAt? (branchDisabled.entry 0).state.history 4).any (fun c => c.callable == .branch 0 true &&
      c.reached && c.disables && c.args.offset == 1 && c.slot == 1 && c.args.tool == 0) = true by decide +kernel)
  obtain ⟨c', found', is_later⟩ := (Option.any_eq_true _ _).1
    (show (answeredAt? ((branchDisabled.entry 0).state.history.take 4) 0).any (fun c => c.slot == 3 &&
      c.args.tool == 0 && c.args.event == .branchLeft) = true by decide +kernel)
  simp only [Bool.and_eq_true, beq_iff_eq] at is_disabling is_later
  obtain ⟨⟨⟨⟨⟨callback, heard⟩, disables⟩, source⟩, slot⟩, tool⟩ := is_disabling
  obtain ⟨⟨slot', tool'⟩, event'⟩ := is_later
  rw [← source] at once
  have here : (branchDisabled.entry 0).code.BranchAt c.args.offset 3 1 := by rwa [source]
  have disabling := branch_disabling reached (by decide +kernel) (split_of_answeredAt found) callback heard disables here
    once (.inr slot)
  constructor
  · obtain ⟨a, inside, enters⟩ := disabling.1 _ c' _ (split_of_answeredAt found') (tool'.trans tool.symm)
      (.inl slot') ⟨false, event'⟩
    exact ⟨a, inside, by rwa [tool, event'] at enters⟩
  · rw [disabling.2.1 1 (by rw [tool]; decide) 3 .branchLeft (by decide +kernel)]
    decide +kernel

end MonitoredVm
