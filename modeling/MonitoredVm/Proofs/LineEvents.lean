import MonitoredVm.Proofs.Disabling

/-!
# Line events

The table of `LINE` is made when some event, whichever it is, gets a second tool, and it is made full. The places that
were disabled by then are forgotten: they stay quiet only until `LINE` enters for some tool, which has every slot that
starts a line report again. All other tools are called where they did not disable the line.
-/

namespace MonitoredVm

open ToolMask

/-- The tools that had disabled the line at `i` when the table of `LINE` was made, and have neither disabled it again
nor entered since. -/
def forgottenAt (code : Code) (i : Nat) : List Happening → ToolMask
  | [] => 0
  | .aligned a :: before =>
    (if madeTable .line .line before then forgottenAt code i before
      else if a.callsForTable .line .line then disabledAt code .line i .line before
      else 0).without (LocalMonitors.get a.added .line)
  | .answered c :: before =>
    if c.hits code .line i .line then (forgottenAt code i before).without (ToolMask.single c.args.tool)
    else forgottenAt code i before

/-- `LINE` has entered for some tool since its table is there. -/
def roused : List Happening → Bool
  | [] => false
  | .aligned a :: before =>
    (madeTable .line .line before || a.callsForTable .line .line) &&
      (roused before || LocalMonitors.get a.added .line != 0)
  | .answered _ :: before => roused before

namespace Cell

/-- The cell calls the active tools that are not `out`, and of these again those that are `forgotten` once the layer is
roused. -/
structure Recalls (c : Cell) (active out forgotten : ToolMask) (roused : Bool) : Prop where
  bare : c.entry = none → c.Exact active out ∧ forgotten = 0 ∧ roused = false
  entry : ∀ m, c.entry = some m → m = active.without (out.without forgotten)
  awake : c.entry.isSome = true → roused = true → (c.armed = true ↔ active.without (out.without forgotten) ≠ 0)
  /-- Until then the table stands for one tool. -/
  asleep : c.entry.isSome = true → roused = false → active.Solo ∧ (c.armed = true ↔ active.without out ≠ 0)

namespace Recalls
variable {c : Cell} {active out forgotten : ToolMask} {roused : Bool}

theorem calls_eq (h : c.Recalls active out forgotten roused) :
    c.calls active = active.without (if roused then out.without forgotten else out) := by
  cases entry : c.entry with
  | none =>
    obtain ⟨exact_out, -, asleep⟩ := h.bare entry
    rw [asleep]
    exact exact_out.calls_eq
  | some m =>
    have m_eq := h.entry m entry
    have table : c.entry.isSome = true := by rw [entry]; rfl
    unfold calls
    rw [entry, Option.getD_some]
    cases state : roused with
    | true =>
      have armed := h.awake table state
      split
      next => exact m_eq
      next off => exact (Decidable.not_not.1 (mt armed.2 off)).symm
    | false =>
      obtain ⟨solo, armed⟩ := h.asleep table state
      split
      next on =>
        obtain ⟨t, has⟩ := (ne_zero_iff _).1 (armed.1 on)
        rw [m_eq]
        apply ext_has
        intro u
        have only := solo u t
        simp at has ⊢
        grind
      next off => exact (Decidable.not_not.1 (mt armed.2 off)).symm

theorem remove (h : c.Recalls active out forgotten roused) (tools) :
    (c.remove active tools).Recalls active (out ||| tools) (forgotten.without tools) roused := by
  cases entry : c.entry with
  | none =>
    obtain ⟨exact_out, none_forgotten, asleep⟩ := h.bare entry
    refine ⟨fun _ => ⟨exact_out.remove tools, by simp [none_forgotten], asleep⟩, ?_, ?_, ?_⟩
    all_goals simp [Cell.remove, entry]
  | some m =>
    have m_eq := h.entry m entry
    have table : c.entry.isSome = true := by rw [entry]; rfl
    have left : m.without tools = active.without ((out ||| tools).without (forgotten.without tools)) := by
      apply ext_has
      intro t
      simp [m_eq]
      grind
    have armed : (c.remove active tools).armed = true ↔ c.armed = true ∧ m.without tools ≠ 0 := by
      simp [Cell.remove, leavesNone, entry]
    refine ⟨by simp [Cell.remove, entry], fun k e => ?_, fun _ state => ?_, fun _ state => ?_⟩
    · simp only [Cell.remove, entry, Option.map_some, Option.some.injEq] at e
      rw [← e, left]
    · rw [armed, h.awake table state, ← left, ← m_eq, and_iff_right_iff_imp]
      rintro some_left rfl
      exact some_left (zero_without tools)
    · obtain ⟨solo, was_armed⟩ := h.asleep table state
      refine ⟨solo, ?_⟩
      rw [armed, was_armed, left]
      simp only [ne_zero_iff]
      simp
      grind [ToolMask.Solo]

section change
variable {after gone new : ToolMask} (restarted : Bool)
  (gone_eq : gone = if restarted then active else active.without after)
  (new_eq : new = if restarted then after else after.without active)
include gone_eq new_eq

theorem solo_of_none_enters (solo : active.Solo) (none_enters : new = 0) :
    after.Solo ∧ (after ≠ 0 → after = active ∧ gone = 0) := by
  have same : ∀ u, new.has u = false := (eq_zero_iff new).1 none_enters
  have sub : ∀ u, after.has u = true → active.has u = true := by
    intro u has
    have := same u
    cases restarted <;> simp [new_eq, has] at this
    exact this
  refine ⟨fun t u ht hu => solo t u (sub t ht) (sub u hu), fun some_active => ?_⟩
  obtain ⟨t, has⟩ := (ne_zero_iff _).1 some_active
  cases restarted with
  | true =>
    have := same t
    simp [new_eq, has] at this
  | false =>
    have all : after = active := ext_has fun u =>
      Bool.eq_iff_iff.2 ⟨sub u, fun is_active => solo u t is_active (sub t has) ▸ has⟩
    exact ⟨all, by rw [gone_eq, all]; exact without_self active⟩

theorem change (h : c.Recalls active out forgotten roused) (table : c.entry = some m) :
    (c.change after gone new).Recalls after (out.without new) (forgotten.without new) (roused || new != 0) := by
  have m_eq := h.entry m table
  have some_table : c.entry.isSome = true := by rw [table]; rfl
  have left : m.without gone ||| new = after.without ((out.without new).without (forgotten.without new)) := by
    apply ext_has
    intro t
    cases restarted <;> simp [m_eq, gone_eq, new_eq] <;> grind
  have armed := change_armed c after gone new
  simp only [leavesNone, table, beq_eq_false_iff_ne] at armed
  refine ⟨by simp [change_entry, table], fun k e => ?_, fun _ state => ?_, fun _ state => ?_⟩
  · simp only [change_entry, table, Option.map_some, Option.some.injEq] at e
    rw [← e, left]
  · rw [armed, ← left]
    by_cases enters : new = 0#8
    · have awake := h.awake some_table (by simpa [enters] using state)
      rw [awake, ← m_eq, enters]
      have kept : m.without gone ≠ 0 → m ≠ 0 := by
        rintro some_left rfl
        exact some_left (zero_without gone)
      have stays : gone = 0 → m.without gone = m := by
        rintro rfl
        exact without_zero m
      simp
      grind
    · have some_called : m.without gone ||| new ≠ 0 := by
        obtain ⟨t, has⟩ := (ne_zero_iff _).1 enters
        exact (ne_zero_iff _).2 ⟨t, by simp [has]⟩
      exact iff_of_true (.inl enters) some_called
  · obtain ⟨asleep, enters⟩ : roused = false ∧ new = 0#8 := by simpa using state
    obtain ⟨solo, was_armed⟩ := h.asleep some_table asleep
    obtain ⟨solo_after, same⟩ := solo_of_none_enters restarted gone_eq new_eq solo enters
    refine ⟨solo_after, ?_⟩
    rw [armed, was_armed, enters, without_zero]
    by_cases some_active : after = 0#8
    · -- all that was active leaves, and with it the last entry
      have all_gone : gone = active := by
        rw [gone_eq, some_active]
        cases restarted <;> simp
      have none_left : m.without gone = 0#8 := by
        rw [m_eq, all_gone]
        exact ext_has fun t => by simp; grind
      have from_active : active.without out ≠ 0 → active ≠ 0 := by
        rintro some_called rfl
        exact some_called (zero_without out)
      rw [none_left, all_gone, some_active]
      simpa using from_active
    · obtain ⟨rfl, rfl⟩ := same some_active
      simp

end change

theorem change_born (h : c.Exact active out) (none_there : c.entry = none) (restarted : Bool)
    (gone_eq : gone = if restarted then active else active.without after)
    (new_eq : new = if restarted then after else after.without active) (some_active : after ≠ 0) :
    ((c.fill after).change after gone new).Recalls after (out.without new) (out.without new) (new != 0) := by
  have solo := h.solo none_there
  have filled : (c.fill after).entry = some after := by simp [fill, none_there]
  have left : after.without gone ||| new = after := by
    apply ext_has
    intro t
    cases restarted <;> simp [gone_eq, new_eq] <;> grind
  have armed := change_armed (c.fill after) after gone new
  simp only [leavesNone, filled, beq_eq_false_iff_ne] at armed
  refine ⟨by simp [change_entry, filled], fun k e => ?_, fun _ state => ?_, fun _ state => ?_⟩
  · simp only [change_entry, filled, Option.map_some, Option.some.injEq] at e
    simp [← e, left]
  · rw [armed, without_self]
    exact iff_of_true (.inl (by simpa using state)) (by simpa using some_active)
  · have none_enters : new = 0#8 := by simpa using state
    obtain ⟨solo_after, same⟩ := solo_of_none_enters restarted gone_eq new_eq solo none_enters
    obtain ⟨rfl, rfl⟩ := same some_active
    refine ⟨solo_after, ?_⟩
    have was_armed : (c.fill after).armed = true ↔ after.without out ≠ 0 := h.armed
    rw [armed, was_armed, none_enters]
    simp

theorem align (h : c.Recalls (LocalMonitors.get a.before e) out forgotten roused) :
    (c.align a .line e).Recalls (LocalMonitors.get a.after e) (out.without (LocalMonitors.get a.added e))
      ((if c.entry.isSome then forgotten else if a.callsForTable .line e then out else 0).without
        (LocalMonitors.get a.added e))
      ((c.entry.isSome || a.callsForTable .line e) && (roused || LocalMonitors.get a.added e != 0)) := by
  unfold Cell.align
  cases entry : c.entry with
  | some m =>
    rw [prepare_of_entry entry]
    exact h.change a.restarted (a.get_removed e) (a.get_added e) entry
  | none =>
    obtain ⟨exact_out, none_forgotten, asleep⟩ := h.bare entry
    unfold prepare
    cases called : a.callsForTable .line e with
    | true =>
      have some_active : LocalMonitors.get a.after e ≠ 0 := by
        simp only [Alignment.callsForTable, Bool.and_eq_true, Bool.or_eq_true, bne_iff_ne] at called
        rcases called.2 with other | some_active
        · cases other
        · exact some_active
      have born := change_born exact_out entry a.restarted (a.get_removed e) (a.get_added e) some_active
      simpa [asleep, Alignment.born] using born
    | false =>
      have bare := exact_out.change a.restarted (a.get_removed e) (a.get_added e)
        fun _ => Alignment.solo_of_not_callsForTable called
      have none_there : (c.change (LocalMonitors.get a.after e) (LocalMonitors.get a.removed e)
          (LocalMonitors.get a.added e)).entry = none := by simp [change_entry, entry]
      refine ⟨fun _ => ⟨bare, by simp, rfl⟩, ?_, ?_, ?_⟩
      all_goals simp [none_there]

end Recalls
end Cell

namespace CodeState

/-- Line starts call the active tools, but for those that disabled the line and are not forgotten. -/
def LinesRecalled (code : Code) (s : CodeState) : Prop :=
  ∀ i, code.eventAt .line i = some .line →
    (s.cell .line i).Recalls (s.active .line) (disabledAt code .line i .line s.history) (forgottenAt code i s.history)
        (roused s.history) ∧
      (s.cell .line i).entry.isSome = madeTable .line .line s.history

theorem kept_linesRecalled : Kept LinesRecalled where
  fresh code i _ := by
    rw [cell_ofCode]
    have idle : Cell.Exact {} 0 0 := ⟨by simp, nofun, fun _ => solo_zero⟩
    exact ⟨⟨fun _ => ⟨idle, rfl, rfl⟩, nofun, nofun, nofun⟩, rfl⟩
  preset own stamps h i event := by
    rw [cell_preset, active_preset]
    exact h i event
  reported _ h := h
  realigned {e code s s'} _ r h i event := by
    obtain ⟨recalls, made⟩ := h i event
    rw [← before_alignment s e] at recalls
    rw [r.history, r.cell .line i _ event, r.active]
    refine ⟨?_, ?_⟩
    · have aligned := recalls.align
      rwa [made] at aligned
    · rw [Cell.isSome_align, made]
      rfl
  faulted {e code s s'} _ f h i event := by
    rw [f.history]
    rcases f.cell .line i _ event with same | ⟨other, -⟩
    · rw [same, f.active]
      exact h i event
    · cases other
  heeded {code s c} formed allowed h i event := by
    obtain ⟨recalls, made⟩ := h i event
    rw [cell_heed formed allowed event, active_heed, history_heed, disabledAt, forgottenAt, roused, madeTable]
    split
    next => exact ⟨recalls.remove _, by rw [← made]; exact Option.isSome_map⟩
    next => exact ⟨recalls, made⟩

end CodeState

/-- `LINE` at the engine's version. A tool is called where a line starts exactly if it has `LINE` enabled and either did
not disable the line there since it last entered, or this was forgotten when the table of `LINE` was made and `LINE` has
since entered for some tool. -/
theorem line_events {w : World} (reached : w.Reached fun e => !e.isLocal) {c : Nat} {code : Code} {s : CodeState}
    (current : w.Current c code s) {i : Nat} (mem : i ∈ code.offsetsFrom code.firstTraceable)
    (starts : (LineTable.build code).any (·.startsLine i) = true) (t : Nat) :
    (s.stepTools w.engine.globals .line i .line).has t = true ↔
      (s.enabled w.engine .line).has t = true ∧
        ((disabledAt code .line i .line s.history).has t = false ∨
          roused s.history = true ∧ (forgottenAt code i s.history).has t = true) := by
  obtain ⟨sound, kept⟩ := CodeState.kept_linesRecalled.reached reached current
  have event : code.eventAt .line i = some .line := by simp [Code.eventAt, mem, starts]
  have recalls := (kept i event).1
  have linable : s.Linable w.engine code := by
    intro _
    cases built : LineTable.build code with
    | none => simp [built] at starts
    | some _ => rfl
  have same := sound.step.active current.monitored current.version linable .line rfl
  rw [CodeState.stepTools_eq same rfl, recalls.calls_eq, same]
  cases roused s.history <;> simp

/-- A tool disables a line; then a second tool asks for `LINE`. -/
def lineShared : World :=
  World.after
    [{ firstLine := some 1
       steps := [.emit .resume (.literal 0), .line (.literal 2), .emit .nop (.literal 0)] }]
    [.scripted [.disable] [] 0] .error
    [.control (.useTool 0 "first"), .control (.useTool 1 "second"),
      .control (.register 0 (EventSet.single .line) (some 0)), .control (.setEvents 0 (EventSet.single .line)),
      .thread 0 (.step 0 1 none false), .control (.setEvents 1 (EventSet.single .line))]

/-- The first tool has disabled the line and is called there all the same. -/
theorem line_events_recalled :
    (disabledAt (lineShared.entry 0).code .line 1 .line (lineShared.entry 0).state.history).has 0 = true ∧
      ((lineShared.entry 0).state.stepTools lineShared.engine.globals .line 1 .line).has 0 = true := by
  have reached : lineShared.Reached fun e => !e.isLocal := ⟨_, _, _, _, by decide, rfl⟩
  have current : lineShared.Current 0 (lineShared.entry 0).code (lineShared.entry 0).state :=
    ⟨by decide +kernel, rfl, rfl, by decide +kernel, by decide +kernel⟩
  refine ⟨by decide +kernel, ?_⟩
  rw [line_events reached current (by decide +kernel) (by decide +kernel)]
  decide +kernel

end MonitoredVm
