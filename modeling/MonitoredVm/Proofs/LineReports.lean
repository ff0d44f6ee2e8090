import MonitoredVm.Proofs.LineChanges

/-!
# Reported lines

Every slot that reports lines is on a line of its code object, and reports it unless the line is out of reach of the line
table (`reported_lines`). The report is left out if the table has the instruction before on the same line. The size of
its entries goes by the traceable instructions; the words of others are cut, so that their lines are taken for lines
further up, a multiple of what an entry has room for away (`Code.TakenFor`, `line_left_out`).
-/

namespace MonitoredVm

open Option

namespace Code

/-- How many words an entry of the line table has room for. -/
def lineRoom (c : Code) : Nat := 1 <<< (8 * (LineTable.entryFor (LineTable.span c) - 1))

/-- The line table has the instruction at `prev` on this line. -/
def TakenFor (c : Code) (prev : Nat) (line : UInt32) : Prop :=
  ∃ last, c.line prev = some last ∧ c.inReach last = true ∧ ∃ k, last.toNat = line.toNat + k * c.lineRoom

end Code

namespace LineTable
variable {code : Code} {t : LineTable}

theorem line_of_startsLine (built : build code = some t) (grid : code.OnGrid)
    (mem : i ∈ code.offsetsFrom code.firstTraceable) (starts : t.startsLine i = true) :
    ∃ line, code.line i = some line := by
  rw [← isSome_iff_exists]
  rw [(of_build built).2.start_eq i (Code.lt_of_mem_offsetsFrom mem), Bool.and_eq_true_iff, decide_eq_true_iff] at starts
  rcases List.mem_append.1 starts.1 with change | target
  · exact (mem_of_mem_lineChanges change).2
  · have has := (List.mem_filter.1 target).2
    rw [lined, wordsOf_traceable built grid mem, wordFor] at has
    cases known : code.line i with
    | none => simp [known, distanceFor, distanceOf] at has
    | some line => rfl

theorem line_eq_some_iff (built : build code = some t) {prev line} (mem : prev ∈ code.offsetsFrom 0)
    (reach : code.inReach line = true) (room : line.toNat + 2 < code.firstLine.toNat + code.lineRoom) :
    t.line code prev = some line ↔ code.TakenFor prev line := by
  have far := noLine_eq
  have bounds := Code.inReach_iff.1 reach
  obtain ⟨fits, shows⟩ := of_build built
  have wide : 0 < entryFor (span code) := Nat.lt_of_lt_of_le (by decide) (two_le_entryFor _)
  have small : wordFor code (code.line prev) < 0x80000000 := Nat.lt_of_not_le (fits prev mem)
  have read : t.distance prev = .ok (distanceOf (wordFor code (code.line prev) % code.lineRoom)) := by
    rw [shows.distance wide (Code.lt_of_mem_offsetsFrom mem), wordsOf, if_pos mem, Code.lineRoom]
  have cut := Nat.mod_le (wordFor code (code.line prev)) code.lineRoom
  have word : t.line code prev = some line ↔
      wordFor code (code.line prev) % code.lineRoom = line.toNat + 2 - code.firstLine.toNat := by
    rw [line_of_distance read, lineAt_eq_some_iff, distanceOf, if_pos (by omega)]
    omega
  rw [word, wordFor_eq (fits prev mem)]
  constructor
  · intro same
    cases known : (code.line prev).filter code.inReach with
    | none =>
      simp only [known, map_none, getD_none, Nat.zero_mod] at same
      omega
    | some last =>
      obtain ⟨line_prev, near⟩ := filter_eq_some_iff.1 known
      have above := (Code.inReach_iff.1 near).1
      simp only [known, map_some, getD_some] at same
      have parts := Nat.mod_add_div (last.toNat + 2 - code.firstLine.toNat) code.lineRoom
      rw [same, Nat.mul_comm] at parts
      exact ⟨last, line_prev, near, (last.toNat + 2 - code.firstLine.toNat) / code.lineRoom, by omega⟩
  · rintro ⟨last, line_prev, near, k, same⟩
    have split_word : last.toNat + 2 - code.firstLine.toNat = line.toNat + 2 - code.firstLine.toNat + k * code.lineRoom := by
      omega
    simp only [line_prev, filter_some, if_pos near, map_some, getD_some]
    rw [split_word, Nat.add_mul_mod_self_right]
    exact Nat.mod_eq_of_lt (by omega)

theorem takenFor_traceable (built : build code = some t) (grid : code.OnGrid) {prev line}
    (mem : prev ∈ code.offsetsFrom code.firstTraceable) (reach : code.inReach line = true)
    (room : line.toNat + 2 < code.firstLine.toNat + code.lineRoom) :
    code.TakenFor prev line ↔ code.line prev = some line := by
  rw [← line_eq_some_iff built (grid.mem mem) reach room, line_of_build built grid mem, filter_eq_some_iff]
  exact and_iff_left_iff_imp.2 fun _ => reach

theorem room_of_traceable {i line} (mem : i ∈ code.offsetsFrom code.firstTraceable) (known : code.line i = some line)
    (reach : code.inReach line = true) : line.toNat + 2 < code.firstLine.toNat + code.lineRoom := by
  have bounds := Code.inReach_iff.1 reach
  have le := le_span mem known
  have least := one_le_span code
  have lt : line.toNat + 2 - code.firstLine.toNat < code.lineRoom := word_lt (by omega) (by omega)
  omega

end LineTable

/-! ## Reports -/

/-- The line table knows the lines of all traceable instructions of an assembled code object that are in its reach, and no
others; a slot that reports lines is on a line, and reports it if it is in reach. No line is at one of the two distances
from the first for which there is no line table. -/
theorem Act.reported_lines (spec : CodeSpec) {code : Code} (assembled : spec.assemble.1 = code)
    (fits : ∀ i ∈ code.offsetsFrom 0, ∀ line, code.line i = some line →
      line.toNat ≠ code.firstLine.toNat + 0x7ffffffe ∧ line.toNat ≠ code.firstLine.toNat + 0x7fffffff) :
    ∃ table, LineTable.build code = some table ∧
      (∀ i ∈ code.offsetsFrom code.firstTraceable, table.line code i = (code.line i).filter code.inReach) ∧
      ∀ (w : World) (c i : Nat), w.Reached (fun _ => true) → c < w.codes.size → (w.entry c).code = code →
        ((w.entry c).state.slot i).line = true →
        ∃ line, code.line i = some line ∧ (code.inReach line = true → lineToReport (w.entry c) i none = some line) := by
  have grid : code.OnGrid := assembled ▸ spec.onGrid_assemble
  have fits : ∀ i ∈ code.offsetsFrom 0, ¬ LineTable.Overflows code i := by
    intro i mem far
    obtain ⟨line, known, same⟩ := LineTable.overflows_iff.1 far
    exact same.elim (fits i mem line known).1 (fits i mem line known).2
  obtain ⟨table, built⟩ := Option.isSome_iff_exists.1 (LineTable.isSome_build_of_fits fits)
  refine ⟨table, built, fun i mem => LineTable.line_of_build built grid mem, fun w c i reached there same armed => ?_⟩
  have sound := ((invariant_sound Discipline.any).reached reached).2 c there
  rw [same] at sound
  obtain ⟨d, kept, data, lines, kept_eq, mem, starts⟩ := sound.line_table armed
  obtain rfl := Option.some.inj (built.symm.trans kept_eq)
  obtain ⟨line, known⟩ := LineTable.line_of_startsLine built grid mem starts
  refine ⟨line, known, fun reach => ?_⟩
  have reported : table.line code i = some line := by
    rw [LineTable.line_of_build built grid mem, known, Option.filter_some, if_pos reach]
  simp [lineToReport, data, lines, same, reported]

/-- Three line starts: well above the first line, on the one before it, and far below. -/
def scattered : CodeSpec where
  firstLine := some 10
  steps := [.emit .resume (.literal 0), .line (.literal 5), .emit .nop (.literal 0), .line (.literal 9), .emit .nop (.literal 0),
    .line (.literal 300), .emit .returnValue (.literal 0)]

/-- A tool has `LINE` enabled, and the code object is up to date. -/
def scatteredWatched : World :=
  World.after [scattered] [.recorder {}] .error
    [.control (.useTool 0 "lines"), .control (.register 0 (EventSet.single .line) (some 0)),
      .control (.setEvents 0 (EventSet.single .line)), .control (.instrument 0)]

/-- The last two lines are known and reported. -/
theorem reported_lines_scattered : ∃ table, LineTable.build scattered.assemble.1 = some table ∧
    table.line scattered.assemble.1 2 = some 9 ∧ table.line scattered.assemble.1 3 = some 300 ∧
    Act.lineToReport (scatteredWatched.entry 0) 2 none = some 9 := by
  have fits : ∀ i ∈ scattered.assemble.1.offsetsFrom 0, ∀ line, scattered.assemble.1.line i = some line →
      line.toNat ≠ scattered.assemble.1.firstLine.toNat + 0x7ffffffe ∧
        line.toNat ≠ scattered.assemble.1.firstLine.toNat + 0x7fffffff := by
    have all : (scattered.assemble.1.offsetsFrom 0).all (fun i => (scattered.assemble.1.line i).all fun line =>
        decide (line.toNat < 0x7ffffffe)) = true := by decide +kernel
    intro i mem line known
    have fine := List.all_eq_true.1 all i mem
    rw [known] at fine
    have small : line.toNat < 0x7ffffffe := by simpa using fine
    omega
  have reached : scatteredWatched.Reached fun _ => true := ⟨_, _, _, _, by decide, rfl⟩
  obtain ⟨table, built, lines, reports⟩ := Act.reported_lines scattered rfl fits
  have moved : World.Moves Discipline.any (World.start [scattered] [.recorder {}] .error) scatteredWatched :=
    World.moves_performAll _ _ (by decide)
  have code : (scatteredWatched.entry 0).code = scattered.assemble.1 := (moved.code_eq (by decide +kernel)).2
  obtain ⟨line, known, reported⟩ := reports scatteredWatched 0 2 reached (by decide +kernel) code (by decide +kernel)
  have known' : scattered.assemble.1.line 2 = some 9 := by decide +kernel
  obtain rfl := Option.some.inj (known.symm.trans known')
  refine ⟨table, built, ?_, ?_, reported (by decide +kernel)⟩
  · rw [lines 2 (by decide +kernel)]
    decide +kernel
  · rw [lines 3 (by decide +kernel)]
    decide +kernel

/-- The first one is not known: the slot is armed for a line that it cannot report. -/
theorem line_above_unreported :
    scattered.assemble.1.line 1 = some 5 ∧ 1 ∈ scattered.assemble.1.offsetsFrom scattered.assemble.1.firstTraceable ∧
      ((LineTable.build scattered.assemble.1).map fun table => table.line scattered.assemble.1 1) = some none ∧
      ((scatteredWatched.entry 0).state.slot 1).line = true ∧
      Act.lineToReport (scatteredWatched.entry 0) 1 none = none := by
  decide +kernel

/-! ## Repeated lines -/

/-- At a slot that reports lines, the report is left out exactly where the table has the instruction before on the same line,
and that is no `RESUME`. Nothing happens then. Otherwise `LINE` goes to all tools of the slot, in turn, whatever their callbacks
do; if these perform no operations, each tool that has one registered is called up to the first refusal. Instructions on the
same line are found there, and traceable ones on another line are not; of the others those are that lie a multiple of what an
entry has room for below. -/
theorem Act.line_left_out {v w : World} (reached : v.Reached fun _ => true) (engine : w.engine = v.engine)
    (codes : w.codes = v.codes) {t i offset prev : Nat} {line : UInt32} (there : i < w.codes.size)
    (calm : (w.thread t).tracing = 0) (armed : ((w.entry i).state.slot offset).line = true)
    (known : (w.entry i).code.line offset = some line) (reach : (w.entry i).code.inReach line = true)
    (mem : prev ∈ (w.entry i).code.offsetsFrom 0) :
    ((w.entry i).code.TakenFor prev line ∧ (w.entry i).code.opcodeAt prev ≠ .resume →
      exec (fireLine t i offset (some prev)) w = (.ok ((w.entry i).state.slot offset).runs, w)) ∧
    (¬ ((w.entry i).code.TakenFor prev line ∧ (w.entry i).code.opcodeAt prev ≠ .resume) →
      exec (fireLine t i offset (some prev)) w =
        exec (do
          deliver t .line offset (w.lineReport i offset line)
            ((w.entry i).state.stepTools w.engine.globals .line offset .line).tools
          return (← slotAt i offset).runs) w ∧
      (w.Quiet → ∃ refusal calls w' op, exec (fireLine t i offset (some prev)) w = (outcome op refusal, w') ∧
        Delivers w w' .line offset (w.lineReport i offset line)
          ((w.entry i).state.stepTools w.engine.globals .line offset .line).tools refusal calls)) ∧
    ((w.entry i).code.line prev = some line → (w.entry i).code.TakenFor prev line) ∧
    (prev ∈ (w.entry i).code.offsetsFrom (w.entry i).code.firstTraceable →
      ((w.entry i).code.TakenFor prev line ↔ (w.entry i).code.line prev = some line)) := by
  have stands := World.Stands.of_reached reached engine codes
  have sound := (stands.all i there).1
  obtain ⟨d, table, data, lines, built, offset_mem, -⟩ := sound.line_table armed
  have inside : offset < (w.entry i).state.slots.size := by
    rw [stands.size_eq there]
    exact Code.lt_of_mem_offsetsFrom offset_mem
  have room := LineTable.room_of_traceable offset_mem known reach
  have taken := LineTable.line_eq_some_iff built mem reach room
  have own : table.line (w.entry i).code offset = some line := by
    rw [LineTable.line_of_build built sound.grid offset_mem, known, Option.filter_some, if_pos reach]
  have report : lineToReport (w.entry i) offset (some prev) =
      if table.line (w.entry i).code prev = some line ∧ (w.entry i).code.opcodeAt prev ≠ .resume then none else some line := by
    simp [lineToReport, data, lines, own]
  refine ⟨fun repeated => ?_, fun changed => ?_, fun same => ⟨line, same, reach, 0, by omega⟩,
    fun traceable => LineTable.takenFor_traceable built sound.grid traceable reach room⟩
  · rw [if_pos ⟨taken.2 repeated.1, repeated.2⟩] at report
    unfold fireLine
    rw [exec_bind, exec_get]
    dsimp only
    rw [if_pos calm, report]
    exact exec_slotAt_bind inside _
  · rw [if_neg fun same => changed ⟨taken.1 same.1, same.2⟩] at report
    have on : Layer.line.armed ((w.entry i).state.slot offset) = true := armed
    have tools : (w.entry i).state.stepTools w.engine.globals .line offset .line =
        CodeState.overlayTools d d.lineTools w.engine.globals offset .line := by
      rw [CodeState.stepTools, if_pos on]
      simp [CodeState.overlayCalls, data, Layer.table]
    rw [tools]
    exact ⟨exec_fireLine_eq calm report data,
      fun quiet => exec_fireLine ⟨quiet, stands.sided, there, inside, calm⟩ report data⟩

/-- A watched code object that begins, before it is traceable, far below its first line. -/
def farBefore : World :=
  World.after
    [{ firstLine := some 1
       steps := [.line (.literal 258), .emit .nop (.literal 0), .line (.literal 1), .traceable, .emit .resume (.literal 0),
        .line (.literal 2), .emit .nop (.literal 0), .emit .returnValue (.literal 0)] }]
    [.recorder {}] .error
    [.control (.useTool 0 "lines"), .control (.register 0 (EventSet.single .line) (some 0)),
      .control (.setEvents 0 (EventSet.single .line)), .control (.instrument 0)]

/-- Line 258 is taken for line 2, and nothing is reported on coming from there; on coming from `RESUME` it is. -/
theorem line_left_out_farBefore : (farBefore.entry 0).code.line 0 = some 258 ∧ (farBefore.entry 0).code.line 2 = some 2 ∧
    Act.exec (Act.fireLine 0 0 2 (some 0)) farBefore = (.ok .nop, farBefore) ∧
    ∃ refusal calls w' op, Act.exec (Act.fireLine 0 0 2 (some 1)) farBefore = (Act.outcome op refusal, w') ∧
      Act.Delivers farBefore w' .line 2 (farBefore.lineReport 0 2 2) [0] refusal calls := by
  have reached : farBefore.Reached fun _ => true := ⟨_, _, _, _, by decide, rfl⟩
  have quiet : farBefore.Quiet := by
    unfold World.Quiet
    decide +kernel
  obtain ⟨there, calm, armed, runs, tools⟩ : 0 < farBefore.codes.size ∧ (farBefore.thread 0).tracing = 0 ∧
      ((farBefore.entry 0).state.slot 2).line = true ∧ ((farBefore.entry 0).state.slot 2).runs = .nop ∧
      ((farBefore.entry 0).state.stepTools farBefore.engine.globals .line 2 .line).tools = [0] := by decide +kernel
  obtain ⟨known, far, resumes, start, resume⟩ : (farBefore.entry 0).code.line 2 = some 2 ∧
      (farBefore.entry 0).code.line 0 = some 258 ∧ (farBefore.entry 0).code.opcodeAt 1 = .resume ∧
      0 ∈ (farBefore.entry 0).code.offsetsFrom 0 ∧ 1 ∈ (farBefore.entry 0).code.offsetsFrom 0 := by decide +kernel
  have reach : (farBefore.entry 0).code.inReach 2 = true := by decide +kernel
  have taken : (farBefore.entry 0).code.TakenFor 0 2 ∧ (farBefore.entry 0).code.opcodeAt 0 ≠ .resume :=
    ⟨⟨258, far, by decide +kernel, 1, by decide +kernel⟩, by decide +kernel⟩
  have first := Act.line_left_out reached rfl rfl there calm armed known reach start
  have second := Act.line_left_out reached rfl rfl there calm armed known reach resume
  obtain ⟨-, delivers⟩ := second.2.1 fun repeated => repeated.2 resumes
  have delivers := delivers quiet
  rw [tools] at delivers
  refine ⟨far, known, ?_, delivers⟩
  rw [← runs]
  exact first.1 taken

end MonitoredVm
