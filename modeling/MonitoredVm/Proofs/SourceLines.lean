import Mathlib
import MonitoredVm.Proofs.Composition
import MonitoredVm.Proofs.Lexemes
import MonitoredVm.Proofs.Nesting

/-!
# Lines of statements and frames

Each statement of a compiled text is spelled by lexemes that stand together (`Sits`) and carries the line of the first
of them. A frame is pushed by a statement of the text or of a function defined in a text, so the frames of every run
stand where statements do (`exec_placed`).

Main statement: `source_lines`. A line is the one in the text less the newlines in the literals before it, so the lines
are those of the text exactly if no literal spans lines; the text of `source_lines_continued` has one that does.
-/

namespace MonitoredVm

open Grammar Lexeme List

/-! ## Statements -/

/-- The statement is one of `ss` or stands in the body of a function defined there. -/
inductive Stmt.In : Stmt → List Stmt → Prop
  | here {s ss} : s ∈ ss → In s ss
  | inside {s line f ss} : .define line f ∈ ss → In s f.body → In s ss

theorem Stmt.In.deeper {outer s : Stmt} {ss line f} (h : outer.In ss) (same : outer = .define line f) (mem : s ∈ f.body) :
    s.In ss := by
  induction h with
  | here found => exact .inside (same ▸ found) (.here mem)
  | inside found _ ih => exact .inside found ih

namespace Grammar
variable {file : String} {s : Stmt} {ss : List Stmt} {ts : List Token}

/-- The tokens of the statement stand together in `ts`. -/
def Sits (file : String) (s : Stmt) (ts : List Token) : Prop := ∃ scopes used, Statement file scopes s used ∧ used <:+: ts

theorem Sits.mono (h : Sits file s ts) (part : ts <:+: us) : Sits file s us :=
  let ⟨scopes, used, statement, here⟩ := h
  ⟨scopes, used, statement, here.trans part⟩

theorem Line.sits (h : Line file scopes ss ts) : ∀ s ∈ ss, Sits file s ts := by
  induction ss generalizing ts with
  | nil => simp
  | cons s ss ih =>
    cases h with
    | last statement => exact fun t mem => mem_singleton.1 mem ▸ ⟨scopes, ts, statement, infix_refl ts⟩
    | closed statement =>
      exact fun t mem => mem_singleton.1 mem ▸ ⟨scopes, _, statement, (prefix_append ..).isInfix⟩
    | more statement line =>
      refine forall_mem_cons.2 ⟨⟨scopes, _, statement, (prefix_append ..).isInfix⟩, fun t mem => ?_⟩
      exact (ih line t mem).mono ((suffix_cons ..).trans (suffix_append ..)).isInfix

theorem Module.sits (h : Module file ss ts) : ∀ s ∈ ss, Sits file s ts := by
  induction h with
  | nil => simp
  | cons line _ ih =>
    refine forall_mem_append.2 ⟨fun s mem => (line.sits s mem).mono (prefix_append ..).isInfix, fun s mem => ?_⟩
    exact (ih s mem).mono ((suffix_cons ..).trans (suffix_append ..)).isInfix

/-- Statements in bodies stand together as well. The induction is on how deep the statement is. -/
theorem Sits.in (h : s.In ss) (all : ∀ s ∈ ss, Sits file s ts) : Sits file s ts := by
  induction h generalizing ts with
  | here mem => exact all _ mem
  | inside mem _ ih =>
    obtain ⟨scopes, used, statement, part⟩ := all _ mem
    cases statement with
    | define parameters line =>
      refine ((ih line.sits).mono (List.IsSuffix.isInfix ?_)).mono part
      exact (suffix_cons ..).trans <| (suffix_append ..).trans <| (suffix_cons ..).trans <|
        (suffix_cons ..).trans (suffix_cons ..)

theorem Sits.function (h : Sits file (.define line f) ts) : f.line = line ∧ f.filename = file := by
  obtain ⟨scopes, used, statement, -⟩ := h
  cases statement
  exact ⟨rfl, rfl⟩

theorem Statement.first (h : Statement file scopes s ts) : ∃ t rest, ts = t :: rest ∧ t.line = s.line := by
  cases h <;> exact ⟨_, _, rfl, rfl⟩

end Grammar

/-- The lexemes of the statement stand together; its line is that of their first character, less the newlines in the
literals before. -/
def Stmt.Starts (lexemes : List Lexeme) (file : String) (s : Stmt) : Prop :=
  ∃ pre l post scopes used rest, lexemes = pre ++ l :: post ∧ (l :: post).map token = used ++ rest ∧
    Statement file scopes s used ∧ s.line + spilt pre = l.start

theorem Grammar.Sits.starts (lined : Lined lexemes) (h : Sits file s (lexemes.map token)) : s.Starts lexemes file := by
  obtain ⟨scopes, used, statement, before, after, same⟩ := h
  obtain ⟨t, more, rfl, line⟩ := statement.first
  rw [append_assoc] at same
  obtain ⟨pre, later, rfl, -, tail⟩ := map_eq_append_iff.1 same.symm
  obtain ⟨l, post, rfl, rfl, -⟩ := map_eq_cons_iff.1 tail
  exact ⟨pre, l, post, scopes, _, after, rfl, tail, statement, line ▸ lined pre l post rfl⟩

theorem sits_of_compile (compiled : Script.compile source file = .ok script)
    (scanned : Lexer.scan source.toList = .ok tokens) (h : s.In script.body) : Sits file s tokens := by
  obtain ⟨u, t, ran, settled, -, module, -⟩ := module_of_compile compiled
  have tokens_eq : tokens = t.finish := by
    rw [Lexer.scan, ran] at scanned
    have scanned : (u.settle >>= fun s => .ok s.finish) = .ok tokens := scanned
    rw [settled] at scanned
    exact (Except.ok.inj scanned).symm
  rw [tokens_eq, Lexer.finish_eq]
  exact (Sits.in h module.sits).mono (prefix_append ..).isInfix

/-! ## Frames -/

section Frames
variable {σ : Type} {h : Natives σ} {texts : String → String → Prop}

/-- The function is defined in a text; `texts` relates file names and texts. -/
def FunctionOf.Of (texts : String → String → Prop) (f : FunctionDef) : Prop :=
  ∃ source script, texts f.filename source ∧ Script.compile source f.filename = .ok script ∧
    (Stmt.define f.line f).In script.body

/-- The frame names a statement of a text. -/
def Frame.Placed (texts : String → String → Prop) (fr : Frame) : Prop :=
  ∃ source lexemes, ∃ s : Stmt, texts fr.filename source ∧ Lexer.Tiles source.toList lexemes ∧ s.Starts lexemes fr.filename ∧
    fr.line = s.line

theorem placed_of_compile (known : texts file source) (compiled : Script.compile source file = .ok script) {s : Stmt}
    (h : s.In script.body) (name) : Frame.Placed texts ⟨file, s.line, name⟩ := by
  obtain ⟨-, tokens, scanned, -⟩ := compile_ok compiled
  obtain ⟨lexemes, tiles, rfl, lined⟩ := Lexer.scan_lexemes scanned
  exact ⟨source, lexemes, s, known, tiles, (sits_of_compile compiled scanned h).starts lined, rfl⟩

/-- The functions the natives give back are defined in texts, and what they raise has passed only statements of texts. -/
def Natives.Located (h : Natives σ) (texts : String → String → Prop) : Prop :=
  ∀ name args kwargs host, Value.AllIn (FunctionOf.Of texts) args → Namespace.All (FunctionOf.Of texts) kwargs →
    Ends False (fun e => ∀ fr ∈ e.traceback, fr.Placed texts) (Value.All (FunctionOf.Of texts)) (h.call name args kwargs host).1

theorem defines_of_compile (known : texts file source) (compiled : Script.compile source file = .ok script) {s : Stmt}
    (h : s.In script.body) : s.Defines (FunctionOf.Of texts) := by
  cases s with
  | act line action => trivial
  | define line f =>
    obtain ⟨-, tokens, scanned, -⟩ := compile_ok compiled
    obtain ⟨rfl, rfl⟩ := (sits_of_compile compiled scanned h).function
    exact ⟨source, script, known, compiled, h⟩

theorem FunctionOf.Of.defines {f : FunctionDef} (of : f.Of texts) (mem : s ∈ f.body) :
    s.Defines (FunctionOf.Of texts) := by
  obtain ⟨source, script, known, compiled, here⟩ := of
  exact defines_of_compile known compiled (here.deeper rfl mem)

/-- Runs raise what has passed only statements of texts. -/
def Natives.Located.contract (natives : h.Located texts) : Contract h (FunctionOf.Of texts) False where
  pre _ := True
  step r s := s.depth = r.depth
  raises _ e := ∀ fr ∈ e.traceback, fr.Placed texts
  fresh _ _ none _ mem := absurd (none ▸ mem) List.not_mem_nil
  earlier _ raised := raised
  refl := (Contract.level h 0).refl
  trans := (Contract.level h 0).trans
  depth same := same
  keeps _ _ := trivial
  letGo _ _ _ := rfl
  native name args kwargs r _ given named := ⟨rfl, natives name args kwargs r.host given named⟩
  body _ of _ mem := of.defines mem

theorem Natives.Located.encloses (natives : h.Located texts) : natives.contract.Encloses natives.contract where
  enter _ _ _ := trivial
  leave _ _ _ moved := congrArg (· - 1) moved
  through r f e _ _ of passes := by
    obtain ⟨source, script, known, compiled, here⟩ := of
    obtain ⟨s, mem, inner, raised, rfl⟩ := passes
    exact forall_mem_cons.2 ⟨placed_of_compile known compiled (here.deeper rfl mem) f.name, raised⟩

/-- A run of a compiled text leaves only functions defined in texts, and every frame of what it raises is placed. -/
theorem exec_placed (natives : h.Located texts) (known : texts file source)
    (compiled : Script.compile source file = .ok script) (fine : Namespace.All (FunctionOf.Of texts) ns) (host : σ) :
    Namespace.All (FunctionOf.Of texts) (script.exec h ns host).2.1 ∧
      ∀ e, (script.exec h ns host).1 = .error (.raised e) → ∀ fr ∈ e.traceback, fr.Placed texts := by
  obtain ⟨rfl, -⟩ := compile_ok compiled
  obtain ⟨-, out, kept, -⟩ := Contract.tracks_block (natives.encloses.calls callBudget)
    (fun _ none => absurd none (Option.not_mem_none _)) script.filename "<module>"
    (fun s mem => defines_of_compile known compiled (.here mem)) fine { host } trivial
  refine ⟨kept, fun e raised => ?_⟩
  change Except.map _ (execBlock h (callValue h callBudget) none script.filename "<module>" script.body ns { host }).1.1 = _
    at raised
  revert raised out
  rcases (execBlock h (callValue h callBudget) none script.filename "<module>" script.body ns { host }).1.1 with halt | flow
  · intro out raised
    obtain rfl : halt = .raised e := Except.error.inj raised
    obtain ⟨s, mem, inner, placed, rfl⟩ := out
    exact forall_mem_cons.2 ⟨placed_of_compile known compiled (.here mem) "<module>", placed⟩
  · intro _ raised
    cases raised

theorem Builtin.natives_located : Builtin.natives.Located texts := by
  intro name args kwargs host _ _
  exact (natives_end _ False name args kwargs host).weaken fun e none => by simp [none]

end Frames

theorem spilt_eq_zero_iff (tiles : Lexer.Tiles source lexemes) (lined : Lined lexemes) :
    (∀ l ∈ lexemes, l.token.line = l.start) ↔ spilt lexemes = 0 := by
  constructor
  · intro exactly
    -- The end of input comes last, so it is behind all literals.
    obtain ⟨ms, l, rfl, none⟩ : ∃ ms l, lexemes = ms ++ [l] ∧ spilt [l] = 0 := by
      cases tiles with
      | ended line => exact ⟨_, _, rfl, rfl⟩
      | @unended _ ls line line' =>
        exact ⟨ls ++ [⟨source, [], ⟨.newline, line⟩⟩], ⟨source, [], ⟨.eof, line'⟩⟩, by simp, rfl⟩
    have last := lined ms l [] rfl
    rw [exactly l (by simp)] at last
    rw [spilt_append]
    omega
  · intro none l mem
    obtain ⟨pre, post, rfl⟩ := append_of_mem mem
    have line := lined pre l post rfl
    rw [spilt_append] at none
    omega

/-- The lines of tokens, statements, functions and frames. -/
theorem source_lines {source tokens} (scanned : Lexer.scan source.toList = .ok tokens) :
    ∃ lexemes, Lexer.Tiles source.toList lexemes ∧ lexemes.map token = tokens ∧
      (∀ pre l post, lexemes = pre ++ l :: post → l.token.line + spilt pre = l.start) ∧
      ((∀ l ∈ lexemes, l.token.line = l.start) ↔ spilt lexemes = 0) ∧
      ∀ file script, Script.compile source file = .ok script →
        (∀ s : Stmt, s.In script.body → s.Starts lexemes file) ∧
        (∀ line f, (Stmt.define line f).In script.body → f.line = line ∧ f.filename = file) ∧
        ∀ (σ : Type) (h : Natives σ) (texts : String → String → Prop), h.Located texts → texts file source →
          ∀ ns host, Namespace.All (FunctionOf.Of texts) ns →
            Namespace.All (FunctionOf.Of texts) (script.exec h ns host).2.1 ∧
              ∀ e, (script.exec h ns host).1 = .error (.raised e) → ∀ fr ∈ e.traceback, fr.Placed texts := by
  obtain ⟨lexemes, tiles, rfl, lined⟩ := Lexer.scan_lexemes scanned
  refine ⟨lexemes, tiles, rfl, lined, spilt_eq_zero_iff tiles lined, fun file script compiled => ⟨?_, ?_, ?_⟩⟩
  · exact fun s inside => (sits_of_compile compiled scanned inside).starts lined
  · exact fun line f inside => (sits_of_compile compiled scanned inside).function
  · exact fun σ h texts natives known ns host fine => exec_placed natives known compiled fine host

/-- A literal over two lines and a statement after it. -/
def continued : String := "x = 'a\\\nb'\nraise KeyError('k')"

def continuedTokens : List Token :=
  [⟨.name "x", 1⟩, ⟨.equal, 1⟩, ⟨.str "a\\\nb", 1⟩, ⟨.newline, 1⟩, ⟨.name "raise", 2⟩, ⟨.name "KeyError", 2⟩, ⟨.lparen, 2⟩,
    ⟨.str "k", 2⟩, ⟨.rparen, 2⟩, ⟨.newline, 2⟩, ⟨.eof, 2⟩]

def continuedScript : Script :=
  ⟨"<test>", [.act 1 (.assign "x" (.str "a\\\nb")), .act 2 (.raise .keyError (some (.str "k")))]⟩

/-- The frame names the second line; the statement stands on the third. -/
theorem source_lines_continued :
    Lexer.scan continued.toList = .ok continuedTokens ∧
    (∃ lexemes, Lexer.Tiles continued.toList lexemes ∧ lexemes.map token = continuedTokens ∧
      ∃ l ∈ lexemes, l.token.line = 2 ∧ l.start = 3) ∧
    Script.compile continued "<test>" = .ok continuedScript ∧
    ∃ e, (continuedScript.exec Builtin.natives {} ()).1 = .error (.raised e) ∧
      e.traceback = [⟨"<test>", 2, "<module>"⟩] ∧
      ∀ fr ∈ e.traceback, fr.Placed fun file source => file = "<test>" ∧ source = continued := by
  have scanned : Lexer.scan continued.toList = .ok continuedTokens := by cbv
  have compiled : Script.compile continued "<test>" = .ok continuedScript := by cbv
  have raised : (continuedScript.exec Builtin.natives {} ()).1 =
    .error (.raised { type := .keyError, message := some "k", traceback := [⟨"<test>", 2, "<module>"⟩] }) := rfl
  obtain ⟨lexemes, tiles, same, -, -, rest⟩ := source_lines scanned
  obtain ⟨-, -, frames⟩ := rest _ _ compiled
  refine ⟨scanned, ⟨lexemes, tiles, same, ?_⟩, compiled, _, raised, rfl, ?_⟩
  · have last : (lexemes.map token).getLast? = some ⟨.eof, 2⟩ := same ▸ rfl
    cases tiles with
    | ended line => exact ⟨_, List.mem_append_right _ List.mem_cons_self, by simpa using last, rfl⟩
    | unended line line' =>
      exact ⟨_, List.mem_append_right _ (List.mem_cons_of_mem _ List.mem_cons_self), by simpa using last, rfl⟩
  · exact (frames Unit Builtin.natives _ Builtin.natives_located ⟨rfl, rfl⟩ {} () .empty).2 _ raised

end MonitoredVm
