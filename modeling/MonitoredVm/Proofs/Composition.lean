import Mathlib
import MonitoredVm.Proofs.LineShift
import MonitoredVm.Proofs.Scanning

/-!
# Scripts one after the other

Two texts with a newline between them compile to the statements of the first and then those of the second, moved down by
the lines of the first (`compile_join`). No statement at the top returns, so running both is running the first and, if it
ends, the second (`exec_append`).

Main statement: `scripts_compose`. Moving the second script down is seen only by tracebacks and by the comparison of
functions; `composition_mixes_functions` is a pair of texts where that comparison makes the difference.
-/

namespace MonitoredVm

open Grammar List

/-! ## The joined text -/

theorem compile_ok (h : Script.compile source file = .ok s) :
    s.filename = file ∧ ∃ ts, Lexer.scan source.toList = .ok ts ∧ Script.parseTokens file ts = .ok s.body := by
  unfold Script.compile at h
  cases scanned : Lexer.scan source.toList with
  | error f =>
    rw [scanned] at h
    cases h
  | ok ts =>
    rw [scanned] at h
    cases parsed : Script.parseTokens file ts with
    | error f =>
      have failed : (Except.ok ts >>= Script.parseTokens file : Except FaultAt (List Stmt)) = .error f := parsed
      rw [failed] at h
      cases h
    | ok body =>
      have read : (Except.ok ts >>= Script.parseTokens file : Except FaultAt (List Stmt)) = .ok body := parsed
      rw [read] at h
      cases h
      exact ⟨rfl, ts, rfl, parsed⟩

theorem compile_of (scanned : Lexer.scan source.toList = .ok ts) (parsed : Script.parseTokens file ts = .ok body) :
    Script.compile source file = .ok ⟨file, body⟩ := by
  have read : Lexer.scan source.toList >>= Script.parseTokens file = .ok body := by
    rw [scanned]
    exact parsed
  unfold Script.compile
  rw [read]

/-- What a text that compiles leaves the scanner with: closed brackets and the tokens of its statements. -/
theorem module_of_compile (h : Script.compile source file = .ok s) :
    ∃ u t, Lexer.run {} source.toList = .ok u ∧ u.settle = .ok t ∧ t.depth = 0 ∧
      Module file s.body t.closed.reverse ∧ ∀ x ∈ t.closed, x.tok ≠ .eof := by
  obtain ⟨-, ts, scanned, parsed⟩ := compile_ok h
  obtain ⟨u, t, ran, settled, rfl⟩ := Lexer.scan_ok scanned
  have start : Lexer.Tidy {} := ⟨rfl, by simp⟩
  have tidy := Lexer.tidy_settle (Lexer.tidy_run start ran) settled
  have inner : ∀ x ∈ t.closed, x.tok ≠ .eof := by
    intro x inside
    unfold Lexer.closed at inside
    split at inside
    · exact tidy.inner x inside
    · obtain rfl | inside := mem_cons.1 inside
      · simp
      · exact tidy.inner x inside
  rw [Lexer.finish_eq, parseTokens_ok_iff (fun x inside => inner x (mem_reverse.1 inside))] at parsed
  refine ⟨u, t, ran, settled, ?_, parsed, inner⟩
  have balanced := parsed.balanced 0
  rw [tidy.depth]
  unfold Lexer.closed at balanced
  split at balanced
  · exact balanced
  · simpa [nest] using balanced

theorem compile_join (first : Script.compile a file = .ok s) (second : Script.compile b file = .ok t) :
    ∃ u, Lexer.run {} a.toList = .ok u ∧
      Script.compile (a ++ "\n" ++ b) file = .ok ⟨file, s.body ++ t.body.map (Stmt.shift u.line)⟩ := by
  obtain ⟨u, v, ran, settled, closed, module, inner⟩ := module_of_compile first
  obtain ⟨u', v', ran', settled', -, module', inner'⟩ := module_of_compile second
  refine ⟨u, ran, ?_⟩
  have line : v.line = u.line := Lexer.settle_line settled
  have joined : (a ++ "\n" ++ b).toList = a.toList ++ '\n' :: b.toList := by simp
  have scanned := Lexer.scan_join ran settled closed ran' settled'
  rw [← joined, Lexer.finish_eq, map_append, ← append_assoc, line] at scanned
  refine compile_of scanned ?_
  rw [← Stmt.shiftAll_eq_map]
  refine (parseTokens_ok_iff ?_).2 (module.append (module'.shift u.line))
  intro x inside
  obtain inside | inside := mem_append.1 inside
  · exact inner x (mem_reverse.1 inside)
  · obtain ⟨y, among, rfl⟩ := mem_map.1 inside
    exact inner' y (mem_reverse.1 among)

/-! ## Running one after the other -/

/-- The statement returns from the function it stands in. -/
def Stmt.isReturn : Stmt → Bool
  | .act _ (.ret _) => true
  | _ => false

theorem Grammar.Simple.stays (h : Simple false a ts) (line) : (Stmt.act line a).isReturn = false := by
  cases h with
  | ret inside => cases inside
  | retWith inside => cases inside
  | _ => rfl

theorem Grammar.Module.stays (h : Module file ss ts) : ∀ s ∈ ss, s.isReturn = false := by
  have lines : ∀ {ss : List Stmt} {ts : List Token}, Line file [] ss ts → ∀ s ∈ ss, s.isReturn = false := by
    intro ss ts line
    refine @Line.rec file (fun scopes s _ _ => scopes = [] → s.isReturn = false)
      (fun scopes ss _ _ => scopes = [] → ∀ s ∈ ss, s.isReturn = false) ?act ?define ?last ?closed ?more [] ss ts line rfl
    case act =>
      rintro scopes action t ts simple rfl
      exact simple.stays t.line
    case define =>
      intros
      rfl
    case last =>
      intro scopes s ts _ here top t inside
      exact mem_singleton.1 inside ▸ here top
    case closed =>
      intro scopes line l action ts _ here top t inside
      exact mem_singleton.1 inside ▸ here top
    case more =>
      intro scopes line l action ss ts us _ _ here others top t inside
      obtain rfl | inside := mem_cons.1 inside
      · exact here top
      · exact others top t inside
  induction h with
  | nil => simp
  | cons line _ ih =>
    intro s inside
    obtain inside | inside := mem_append.1 inside
    · exact lines line s inside
    · exact ih s inside

section Execution
variable {σ : Type} {h : Natives σ} {K : Caller σ}

theorem bind_ok_cases {α β : Type} {x} {f : α → Eval σ β} {r s b} (done : (x >>= f) r = (.ok b, s)) :
    ∃ a t, x r = (.ok a, t) ∧ f a t = (.ok b, s) := by
  rcases value : x r with ⟨a | a, t⟩
  · rw [bind_of_error value] at done
    cases done
  · rw [bind_of_ok value] at done
    exact ⟨a, t, rfl, done⟩

theorem next_of_exec {globals ns ns'} {stmt : Stmt} (stays : stmt.isReturn = false) {r s flow}
    (done : stmt.exec h K globals ns r = (.ok (flow, ns'), s)) : flow = .next := by
  have next : ∀ {ns'' : Namespace} {t : Run σ},
      ((pure (.next, ns'') : Eval σ (Flow × Namespace)) t = (.ok (flow, ns'), s)) → flow = .next := by
    intro ns'' t same
    exact ((Prod.mk.inj (Except.ok.inj (Prod.mk.inj same).1)).1).symm
  cases stmt with
  | define line f =>
    obtain ⟨_, t, -, last⟩ := bind_ok_cases done
    exact next last
  | act line action =>
    cases action with
    | pass => exact next done
    | assign name e =>
      obtain ⟨v, t, -, more⟩ := bind_ok_cases done
      obtain ⟨_, u, -, last⟩ := bind_ok_cases more
      exact next last
    | delete name =>
      rw [Stmt.exec] at done
      split at done
      · obtain ⟨_, t, -, last⟩ := bind_ok_cases done
        exact next last
      · cases done
    | raise type message =>
      cases message with
      | none => cases done
      | some e =>
        obtain ⟨v, t, -, last⟩ := bind_ok_cases done
        cases last
    | ret e => cases stays
    | eval e =>
      obtain ⟨v, t, -, last⟩ := bind_ok_cases done
      exact next last

theorem execBlock_append (h : Natives σ) (K : Caller σ) (globals filename scope) (stays : ∀ s ∈ xs, s.isReturn = false)
    (ys ns) (r : Run σ) : (∃ halt ns' s, execBlock h K globals filename scope xs ns r = ((.error halt, ns'), s) ∧
      execBlock h K globals filename scope (xs ++ ys) ns r = ((.error halt, ns'), s)) ∨
    (∃ ns' s, execBlock h K globals filename scope xs ns r = ((.ok .next, ns'), s) ∧
      execBlock h K globals filename scope (xs ++ ys) ns r = execBlock h K globals filename scope ys ns' s) := by
  induction xs generalizing ns r with
  | nil => exact .inr ⟨ns, r, rfl, rfl⟩
  | cons stmt xs ih =>
    rw [cons_append, execBlock_cons, execBlock_cons]
    rcases value : stmt.exec h K globals ns r with ⟨halt | ⟨flow, ns'⟩, s⟩
    · exact .inl ⟨_, ns, s, rfl, rfl⟩
    · obtain rfl := next_of_exec (stays stmt mem_cons_self) value
      exact ih (fun t inside => stays t (mem_cons_of_mem _ inside)) ns' s

theorem depth_execBlock (h : Natives σ) (globals filename scope ss ns budget) (r : Run σ) :
    (execBlock h (callValue h budget) globals filename scope ss ns r).2.depth = r.depth := by
  have keeps : h.Keeps fun _ _ => True := ⟨fun _ => trivial, fun _ _ => trivial, fun _ _ => trivial, fun _ _ _ _ => trivial⟩
  have every : ∀ ns, Namespace.All (fun _ => True) ns := fun _ e _ => Value.all_of (fun _ => trivial) e.2
  have defines : ∀ t ∈ ss, t.Defines fun _ => True := fun t _ => by cases t <;> trivial
  exact (Contract.tracks_block (keeps.calls budget) (fun g _ => every g) filename scope defines (every ns) r trivial).1.2

theorem exec_of_block
    (ran : execBlock h (callValue h callBudget) none file "<module>" ss ns { host } = ((result, ns'), s)) :
    Script.exec h ⟨file, ss⟩ ns host = (result.map fun _ => (), ns', s.host) := by
  unfold Script.exec Script.execWith
  rw [StateT.run, ran]

theorem exec_append (h : Natives σ) (file) (stays : ∀ s ∈ xs, s.isReturn = false) (ys ns) (host : σ) :
    (∀ halt ns' host', Script.exec h ⟨file, xs⟩ ns host = (.error halt, ns', host') →
      Script.exec h ⟨file, xs ++ ys⟩ ns host = (.error halt, ns', host')) ∧
    (∀ ns' host', Script.exec h ⟨file, xs⟩ ns host = (.ok (), ns', host') →
      Script.exec h ⟨file, xs ++ ys⟩ ns host = Script.exec h ⟨file, ys⟩ ns' host') := by
  have depth := depth_execBlock h none file "<module>" xs ns callBudget { host }
  obtain ⟨halt, ns', s, first, both⟩ | ⟨ns', s, first, both⟩ :=
    execBlock_append h (callValue h callBudget) none file "<module>" stays ys ns { host }
  · rw [exec_of_block first, exec_of_block both]
    refine ⟨fun _ _ _ same => same, fun _ _ same => ?_⟩
    cases same
  · rw [first] at depth
    rw [exec_of_block first]
    refine ⟨fun _ _ _ same => ?_, fun _ _ same => ?_⟩
    · cases same
    · cases same
      obtain ⟨host', d⟩ := s
      obtain rfl : d = 0 := depth
      unfold Script.exec Script.execWith
      rw [StateT.run, StateT.run, both]

/-- A script further down ends alike wherever the functions it defines compare with those it finds as before. -/
theorem ended_shift (nestedKept : Nested kept) (nestedMoved : Nested moved) (unmixed : Unmixed k kept moved)
    (answered : (shiftLikeness k kept moved H).Answered h h) (t : Script) (defines : ∀ q ∈ t.body, q.Defines moved)
    (found : Namespace.All kept ns) (related : H host host) : (shiftLikeness k kept moved H).Ended (t.exec h ns host)
      (Script.exec h ⟨t.filename, t.body.map (Stmt.shift k)⟩ ns host) := by
  have body : List.Forall₂ (shiftLikeness k kept moved H).Statement t.body (Stmt.shiftAll k t.body) :=
    statements_moved H defines
  rw [← Stmt.shiftAll_eq_map]
  exact Likeness.like_execWith (shift_lawful nestedKept nestedMoved unmixed answered) callBudget t
    ⟨t.filename, Stmt.shiftAll k t.body⟩ rfl body (bound_of_all H found) related

end Execution

/-- Scripts compose. The joined text compiles, to the statements of `a` followed by those of `b` moved down by the lines of `a`.
If `a` fails, so does the joined script, with the same exception and bindings. If `a` ends, the joined script goes on as `b`
moved down; and it does so as `b` itself, up to the lines in functions and tracebacks, whenever the natives do not look at
lines and moving the functions of `b` down changes no comparison with the functions that `a` left. -/
theorem scripts_compose {σ : Type} (h : Natives σ) {a b file : String} {s t : Script}
    (first : Script.compile a file = .ok s) (second : Script.compile b file = .ok t) :
    ∃ u joined, Lexer.run {} a.toList = .ok u ∧ Script.compile (a ++ "\n" ++ b) file = .ok joined ∧
      joined.body = s.body ++ t.body.map (Stmt.shift u.line) ∧
      ∀ ns host,
        (∀ halt ns' host', s.exec h ns host = (.error halt, ns', host') →
          joined.exec h ns host = (.error halt, ns', host')) ∧
        (∀ ns' host', s.exec h ns host = (.ok (), ns', host') →
          joined.exec h ns host = Script.exec h ⟨file, t.body.map (Stmt.shift u.line)⟩ ns' host' ∧
          ∀ (kept moved : FunctionDef → Prop) (H : σ → σ → Prop), Nested kept → Nested moved →
            Namespace.All kept ns' → (∀ q ∈ t.body, q.Defines moved) → Unmixed u.line kept moved →
            (shiftLikeness u.line kept moved H).Answered h h → H host' host' →
            (shiftLikeness u.line kept moved H).Ended (t.exec h ns' host') (joined.exec h ns host)) := by
  obtain ⟨u, ran, compiled⟩ := compile_join first second
  obtain ⟨sameFile, -⟩ := compile_ok first
  obtain ⟨sameFile', -⟩ := compile_ok second
  obtain ⟨_, _, _, _, _, module, _⟩ := module_of_compile first
  refine ⟨u, _, ran, compiled, rfl, fun ns host => ?_⟩
  obtain ⟨file', body⟩ := s
  obtain rfl : file' = file := sameFile
  obtain ⟨fails, ends⟩ := exec_append h file' module.stays (t.body.map (Stmt.shift u.line)) ns host
  refine ⟨fails, fun ns' host' ended => ⟨ends ns' host' ended, ?_⟩⟩
  intro kept moved H nestedKept nestedMoved found defines unmixed answered related
  rw [ends ns' host' ended]
  have alike := ended_shift nestedKept nestedMoved unmixed answered t defines found related
  rwa [sameFile'] at alike

/-- `def g(): return 1`. -/
def answering : FunctionDef := ⟨"g", "g", "m", 1, [], [.act 1 (.ret (some (.int 1)))]⟩

/-- `def f(): raise ValueError(g())`. -/
def raising : FunctionDef := ⟨"f", "f", "m", 1, [], [.act 1 (.raise .valueError (some (.call (.name "g") [] [])))]⟩

/-- A function in each script, and the second one raises: tracebacks and functions differ by the line of the first. -/
theorem scripts_compose_raising :
    Script.compile "def g(): return 1" "m" = .ok ⟨"m", [.define 1 answering]⟩ ∧
    Script.compile "def f(): raise ValueError(g())\nf()" "m" =
      .ok ⟨"m", [.define 1 raising, .act 2 (.eval (.call (.name "f") [] []))]⟩ ∧
    Script.exec Builtin.natives ⟨"m", [.define 1 answering]⟩ {} () = (.ok (), ⟨[("g", .function answering)]⟩, ()) ∧
    ∃ u joined, Lexer.run {} "def g(): return 1".toList = .ok u ∧
      Script.compile ("def g(): return 1" ++ "\n" ++ "def f(): raise ValueError(g())\nf()") "m" = .ok joined ∧
      (shiftLikeness u.line (· = answering) (· = raising) fun _ _ : Unit => True).Ended
        (Script.exec Builtin.natives ⟨"m", [.define 1 raising, .act 2 (.eval (.call (.name "f") [] []))]⟩
          ⟨[("g", .function answering)]⟩ ())
        (joined.exec Builtin.natives {} ()) := by
  have first : Script.compile "def g(): return 1" "m" = .ok ⟨"m", [.define 1 answering]⟩ := by cbv
  have second : Script.compile "def f(): raise ValueError(g())\nf()" "m" =
      .ok ⟨"m", [.define 1 raising, .act 2 (.eval (.call (.name "f") [] []))]⟩ := by cbv
  have ran : Script.exec Builtin.natives ⟨"m", [.define 1 answering]⟩ {} () =
      (.ok (), ⟨[("g", .function answering)]⟩, ()) := by cbv
  obtain ⟨u, joined, lines, compiled, -, runs⟩ := scripts_compose Builtin.natives first second
  refine ⟨first, second, ran, u, joined, lines, compiled, ?_⟩
  refine ((runs {} ()).2 _ () ran).2 (· = answering) (· = raising) (fun _ _ => True) ?_ ?_ ?_ ?_ ?_
    (builtins_answered _ _ _) trivial
  · rintro f rfl s inside
    obtain rfl := List.mem_singleton.1 inside
    trivial
  · rintro f rfl s inside
    obtain rfl := List.mem_singleton.1 inside
    trivial
  · intro e inside
    obtain rfl := List.mem_singleton.1 inside
    exact (rfl : answering = answering)
  · intro q inside
    obtain rfl | rfl : q = .define 1 raising ∨ q = .act 2 (.eval (.call (.name "f") [] [])) := by simpa using inside
    · exact (rfl : raising = raising)
    · trivial
  · rintro f g rfl rfl
    exact ⟨rfl, rfl⟩

/-- `def f(): pass` on a line. -/
def passing (line : Nat) : FunctionDef := ⟨"f", "f", "m", line, [], [.act line .pass]⟩

/-- Two texts that define the same function: run apart, the second `f` equals the first, which `g` still names, and the dict
has one key; joined, the second `f` stands on another line and the dict has two. No moving of lines accounts for it. -/
theorem composition_mixes_functions :
    ∃ s t joined, Script.compile "def f(): pass\ng = f" "m" = .ok s ∧
      Script.compile "def f(): pass\nd = \x7bg: 1, f: 2\x7d" "m" = .ok t ∧
      Script.compile ("def f(): pass\ng = f" ++ "\n" ++ "def f(): pass\nd = \x7bg: 1, f: 2\x7d") "m" = .ok joined ∧
      s.exec Builtin.natives {} () =
        (.ok (), ⟨[("f", .function (passing 1)), ("g", .function (passing 1))]⟩, ()) ∧
      t.exec Builtin.natives ⟨[("f", .function (passing 1)), ("g", .function (passing 1))]⟩ () =
        (.ok (), ⟨[("f", .function (passing 1)), ("g", .function (passing 1)),
          ("d", .dict [(.function (passing 1), .int 2)])]⟩, ()) ∧
      joined.exec Builtin.natives {} () =
        (.ok (), ⟨[("f", .function (passing 3)), ("g", .function (passing 1)),
          ("d", .dict [(.function (passing 1), .int 1), (.function (passing 3), .int 2)])]⟩, ()) ∧
      ∀ k kept moved, ¬ (shiftLikeness k kept moved fun _ _ : Unit => True).Ended
        (t.exec Builtin.natives (s.exec Builtin.natives {} ()).2.1 ()) (joined.exec Builtin.natives {} ()) := by
  have ran : Script.exec Builtin.natives ⟨"m", [.define 1 (passing 1), .act 2 (.assign "g" (.name "f"))]⟩ {} () =
      (.ok (), ⟨[("f", .function (passing 1)), ("g", .function (passing 1))]⟩, ()) := by cbv
  have apart : Script.exec Builtin.natives
      ⟨"m", [.define 1 (passing 1), .act 2 (.assign "d" (.dict [(.name "g", .int 1), (.name "f", .int 2)]))]⟩
      ⟨[("f", .function (passing 1)), ("g", .function (passing 1))]⟩ () =
      (.ok (), ⟨[("f", .function (passing 1)), ("g", .function (passing 1)),
        ("d", .dict [(.function (passing 1), .int 2)])]⟩, ()) := by cbv
  have together : Script.exec Builtin.natives
      ⟨"m", [.define 1 (passing 1), .act 2 (.assign "g" (.name "f")), .define 3 (passing 3),
        .act 4 (.assign "d" (.dict [(.name "g", .int 1), (.name "f", .int 2)]))]⟩ {} () =
      (.ok (), ⟨[("f", .function (passing 3)), ("g", .function (passing 1)),
        ("d", .dict [(.function (passing 1), .int 1), (.function (passing 3), .int 2)])]⟩, ()) := by cbv
  refine ⟨_, _, _, by cbv, by cbv, by cbv, ran, apart, together, fun k kept moved ended => ?_⟩
  rw [ran, apart, together] at ended
  obtain ⟨-, bound, -⟩ := ended
  -- The third entry on each side is the dict.
  cases bound with
  | cons _ bound =>
    cases bound with
    | cons _ bound =>
      cases bound with
      | cons dict _ =>
        obtain ⟨qs, same, pairs⟩ := dict.2
        cases same
        obtain ⟨key, value, rest, same, -, -, none⟩ := pairs
        cases same
        cases none

end MonitoredVm
