import MonitoredVm.Monitoring.History

/-!
# Tool masks as sets of tools

A mask is known by the tools it has. Proofs about masks pass to `has`, tool by tool, where union, intersection
and difference are the Boolean operations; tables of masks are read event by event.
-/

namespace MonitoredVm

namespace ToolMask

@[simp, grind =] theorem has_zero (t) : has (0#8) t = false := by simp [has]

@[simp, grind =] theorem has_or (a b : ToolMask) (t) : (a ||| b : ToolMask).has t = (a.has t || b.has t) := by
  simp [has]

@[simp, grind =] theorem has_and (a b : ToolMask) (t) : (a &&& b : ToolMask).has t = (a.has t && b.has t) := by
  simp [has]

@[simp, grind =] theorem has_without (a b : ToolMask) (t) : (a.without b).has t = (a.has t && !b.has t) := by
  by_cases h : t < 8
  · simp [has, without, h]
  · simp [has, without, BitVec.getLsbD_of_ge _ _ (Nat.le_of_not_lt h)]

@[simp] theorem has_single (s t) : (single s).has t = (decide (s < 8) && decide (s = t)) := by
  simp [has, single, BitVec.getLsbD_twoPow]

theorem ext_has {a b : ToolMask} (h : ∀ t, a.has t = b.has t) : a = b :=
  BitVec.eq_of_getLsbD_eq fun t _ => h t

@[simp] theorem without_zero (m : ToolMask) : m.without 0#8 = m := by
  apply ext_has
  intro t
  simp

@[simp] theorem zero_without (m) : without (0#8) m = 0#8 := by
  apply ext_has
  intro t
  simp

@[simp] theorem without_self (m : ToolMask) : m.without m = 0#8 := by
  apply ext_has
  intro t
  simp

theorem eq_zero_iff (m : ToolMask) : m = 0 ↔ ∀ t, m.has t = false := by
  constructor
  · rintro rfl t
    exact has_zero t
  · intro h
    exact ext_has fun t => (h t).trans (has_zero t).symm

theorem ne_zero_iff (m : ToolMask) : m ≠ 0 ↔ ∃ t, m.has t = true := by
  rw [ne_eq, eq_zero_iff]
  simp

theorem eq_iff_has (a b : ToolMask) : a = b ↔ ∀ t, a.has t = b.has t :=
  ⟨fun h t => by rw [h], ext_has⟩

def Solo (m : ToolMask) : Prop := ∀ s t, m.has s = true → m.has t = true → s = t

theorem solo_zero : Solo 0 := by
  intro s t h
  simp at h

theorem lt_of_has {m : ToolMask} (h : m.has t = true) : t < 8 := by
  refine Nat.lt_of_not_le fun ge => ?_
  simp [has, BitVec.getLsbD_of_ge _ _ ge] at h

theorem mem_tools {m : ToolMask} : t ∈ m.tools ↔ m.has t = true := by
  constructor
  · intro h
    exact (List.mem_filter.1 h).2
  · intro h
    refine List.mem_filter.2 ⟨?_, h⟩
    have bound := lt_of_has h
    simp only [List.mem_cons, List.not_mem_nil, or_false]
    omega

theorem solo_of_length {m : ToolMask} (h : m.tools.length ≤ 1) : Solo m := by
  intro s t hs ht
  have s_mem := mem_tools.2 hs
  have t_mem := mem_tools.2 ht
  match e : m.tools, h with
  | [], _ => simp [e] at s_mem
  | [x], _ =>
    simp only [e, List.mem_singleton] at s_mem t_mem
    rw [s_mem, t_mem]

end ToolMask

namespace Monitors
variable {n : Nat}

@[simp] theorem mask_ofFn (f : Nat → ToolMask) (e) : (ofFn f : Monitors n).mask e = if e < n then f e else 0 := by
  unfold mask ofFn
  by_cases h : e < n <;> simp [h]

theorem mask_of_ge (m : Monitors n) (h : n ≤ e) : m.mask e = 0 := by
  simp [mask, h]

@[simp] theorem mask_none (e) : (none : Monitors n).mask e = 0 := by simp [none]

@[simp] theorem mask_sub (a b : Monitors n) (e) : (a.sub b).mask e = (a.mask e).without (b.mask e) := by
  by_cases h : e < n
  · simp [sub, h]
  · simp [sub, h, mask_of_ge a (Nat.le_of_not_lt h), ToolMask.without]

theorem mask_of_isEmpty {m : Monitors n} (h : m.isEmpty = true) (e) : m.mask e = 0 := by
  by_cases lt : e < n
  · have all := (Vector.all_eq_true.1 h) e lt
    simpa [mask, lt] using all
  · exact mask_of_ge m (Nat.le_of_not_lt lt)

@[simp] theorem mask_clearTool (m : Monitors n) (t e) :
    (m.clearTool t).mask e = (m.mask e).without (ToolMask.single t) := by
  by_cases lt : e < n
  · simp [clearTool, lt]
  · simp [clearTool, lt, mask_of_ge m (Nat.le_of_not_lt lt)]

theorem mask_setEvents_zero (m : Monitors n) (t e) :
    (m.setEvents t 0).mask e = (m.mask e).without (ToolMask.single t) := by
  by_cases lt : e < n
  · simp [setEvents, lt]
  · simp [setEvents, lt, mask_of_ge m (Nat.le_of_not_lt lt)]

theorem getLsbD_eventsFor (m : Monitors n) (t) (fits : e < 32) : (m.eventsFor t).getLsbD e = (m.mask e).has t := by
  have folded : ∀ (ids : List Nat) (s : EventSet),
      (ids.foldl (fun s e => if (m.mask e).has t then s ||| BitVec.twoPow 32 e else s) s).getLsbD e =
        (s.getLsbD e || (decide (e ∈ ids) && (m.mask e).has t)) := by
    intro ids
    induction ids with
    | nil => simp
    | cons id rest ih =>
      intro s
      have first : (if (m.mask id).has t then s ||| BitVec.twoPow 32 id else s).getLsbD e =
          (s.getLsbD e || (decide (e = id) && (m.mask id).has t)) := by
        have bit : (BitVec.twoPow 32 id).getLsbD e = decide (e = id) := by
          rw [BitVec.getLsbD_twoPow, Bool.eq_iff_iff]
          simp
          omega
        split
        next has => rw [BitVec.getLsbD_or, bit, has, Bool.and_true]
        next off => rw [Bool.eq_false_iff.2 off, Bool.and_false, Bool.or_false]
      rw [List.foldl_cons, ih, first]
      by_cases same : e = id
      · subst same
        cases (m.mask e).has t <;> simp
      · simp [same]
  rw [eventsFor, folded]
  by_cases lt : e < n
  · simp [lt]
  · simp [lt, mask_of_ge m (Nat.le_of_not_lt lt)]

theorem eventsFor_eq_iff {m : Monitors n} {m' : Monitors k} (fits : n ≤ 32) (fits' : k ≤ 32) :
    m.eventsFor t = m'.eventsFor t ↔ ∀ e, (m.mask e).has t = (m'.mask e).has t := by
  refine ⟨fun same e => ?_, fun same => ?_⟩
  · by_cases lt : e < 32
    · rw [← getLsbD_eventsFor m t lt, same, getLsbD_eventsFor m' t lt]
    · rw [mask_of_ge m (by omega), mask_of_ge m' (by omega)]
  · refine BitVec.eq_of_getLsbD_eq fun e lt => ?_
    rw [getLsbD_eventsFor m t lt, getLsbD_eventsFor m' t lt, same]

theorem eventsFor_eq_zero {m : Monitors n} (none_there : ∀ e, (m.mask e).has t = false) : m.eventsFor t = 0 := by
  refine BitVec.eq_of_getLsbD_eq fun e lt => ?_
  rw [getLsbD_eventsFor m t lt, none_there]
  exact (BitVec.getLsbD_zero ..).symm

theorem solo_of_not_shared {m : Monitors n} (h : m.isShared = false) (e) : (m.mask e).Solo := by
  by_cases lt : e < n
  · have each := (Vector.any_eq_false.1 h) e lt
    apply ToolMask.solo_of_length
    simpa [mask, lt] using each
  · rw [mask_of_ge m (Nat.le_of_not_lt lt)]
    exact ToolMask.solo_zero

end Monitors

namespace LocalMonitors

@[simp] theorem get_none (e) : get Monitors.none e = 0 := Monitors.mask_none e.id

theorem get_sub (a b : LocalMonitors) (e) : get (a.sub b) e = (get a e).without (get b e) :=
  Monitors.mask_sub a b e.id

end LocalMonitors

theorem GlobalMonitors.get_union (g : GlobalMonitors) (own) (h : e.isLocal = true) :
    LocalMonitors.get (g.union own) e = g.get e ||| LocalMonitors.get own e := by
  have lt : e.id < 11 := by simpa [Event.isLocal] using h
  have same : e.maskEvent = e := by cases e <;> first | rfl | simp [Event.isLocal, Event.id] at h
  simp [GlobalMonitors.union, LocalMonitors.get, GlobalMonitors.get, lt, same]

namespace Alignment

theorem get_removed (a : Alignment) (e) :
    LocalMonitors.get a.removed e =
      if a.restarted then LocalMonitors.get a.before e
      else (LocalMonitors.get a.before e).without (LocalMonitors.get a.after e) := by
  unfold removed
  split
  · rfl
  · exact LocalMonitors.get_sub _ _ e

theorem get_added (a : Alignment) (e) :
    LocalMonitors.get a.added e =
      if a.restarted then LocalMonitors.get a.after e
      else (LocalMonitors.get a.after e).without (LocalMonitors.get a.before e) := by
  unfold added
  split
  · rfl
  · exact LocalMonitors.get_sub _ _ e

end Alignment
end MonitoredVm
