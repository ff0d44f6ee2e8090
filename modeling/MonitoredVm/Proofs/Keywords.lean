import MonitoredVm.Proofs.Arguments
import MonitoredVm.Proofs.SourceLines

/-!
# Which names a text binds

A statement binds the target of an assignment or the name of a function (`Stmt.bound?`); a frame starts with the parameters of
its function. The grammar keeps keywords out of assignments only, so a keyword that is bound is the name of a function or of a
parameter.

Main statement: `keywords_bound`. The text of `keywords_bound_none` binds `None` in all three ways.
-/

namespace MonitoredVm

open List Grammar

variable {σ : Type}

/-- The name that a statement binds when it succeeds. -/
def Stmt.bound? : Stmt → Option String
  | .act _ (.assign name _) => some name
  | .define _ f => some f.name
  | _ => none

/-- The name is that of a function defined by one of the statements. -/
def Stmt.Names (ss : List Stmt) (name : String) : Prop := ∃ line f, Stmt.define line f ∈ ss ∧ f.name = name

theorem Bindings.of_mem_names_insert {α : Type} {b : Bindings α} {name v k} (h : k ∈ (b.insert name v).names) :
    k ∈ b.names ∨ k = name := by
  rw [names_insert] at h
  split at h
  · exact .inl h
  · simpa using h

theorem Bindings.of_mem_names_erase {α : Type} {b : Bindings α} (h : k ∈ (b.erase name).names) : k ∈ b.names := by
  obtain ⟨entries⟩ := b
  change k ∈ (remove name entries).map (·.1) at h
  change k ∈ entries.map (·.1)
  induction entries with
  | nil => exact h
  | cons e rest ih =>
    rw [remove] at h
    split at h
    · exact mem_cons_of_mem _ h
    · rw [map_cons, mem_cons] at h ⊢
      exact h.imp_right ih

section Exec
variable {h : Natives σ} {K : Caller σ} {globals : Option Namespace} {ns ns' : Namespace} {r r' : Run σ}

theorem exec_names {s : Stmt} {flow} (ran : s.exec h K globals ns r = (.ok (flow, ns'), r')) {k} (mem : k ∈ ns'.names) :
    k ∈ ns.names ∨ k ∈ s.bound? := by
  cases s with
  | define line f =>
    obtain ⟨_, _, -, done⟩ := ok_of_bind ran
    cases done
    exact (Bindings.of_mem_names_insert mem).imp_right fun same => by simp [Stmt.bound?, same]
  | act line action =>
    cases action with
    | pass =>
      cases ran
      exact .inl mem
    | assign name e =>
      obtain ⟨_, _, -, ran⟩ := ok_of_bind ran
      obtain ⟨_, _, -, done⟩ := ok_of_bind ran
      cases done
      exact (Bindings.of_mem_names_insert mem).imp_right fun same => by simp [Stmt.bound?, same]
    | delete name =>
      rw [Stmt.exec.eq_def] at ran
      dsimp only at ran
      split at ran
      · obtain ⟨_, _, -, done⟩ := ok_of_bind ran
        cases done
        exact .inl (Bindings.of_mem_names_erase mem)
      · cases ran
    | raise type e =>
      cases e with
      | none => cases ran
      | some e =>
        obtain ⟨_, _, -, done⟩ := ok_of_bind ran
        cases done
    | ret e | eval e =>
      obtain ⟨_, _, -, done⟩ := ok_of_bind ran
      cases done
      exact .inl mem

theorem execBlock_names (ran : execBlock h K globals file scope ss ns r = (out, r')) (mem : k ∈ out.2.names) :
    k ∈ ns.names ∨ ∃ s ∈ ss, k ∈ s.bound? := by
  induction ss generalizing ns r with
  | nil =>
    cases ran
    exact .inl mem
  | cons s ss ih =>
    rw [execBlock_cons] at ran
    rcases value : s.exec h K globals ns r with ⟨halt | ⟨flow, next⟩, t⟩
    · rw [value] at ran
      cases ran
      exact .inl mem
    · have here : k ∈ next.names → k ∈ ns.names ∨ ∃ s' ∈ s :: ss, k ∈ s'.bound? := fun mem =>
        (exec_names value mem).imp_right fun bound => ⟨s, mem_cons_self, bound⟩
      rw [value] at ran
      cases flow with
      | returned v =>
        cases ran
        exact here mem
      | next =>
        obtain before | ⟨s', later, bound⟩ := ih ran
        · exact here before
        · exact .inr ⟨s', mem_cons_of_mem _ later, bound⟩

theorem bindParams_names {function kwargs} {D : Expr → Eval σ Value} {ps args frame missing} {out : Namespace × List String}
    (ran : bindParams function kwargs D ps args frame missing r = (.ok out, r')) {k} (mem : k ∈ out.1.names) :
    k ∈ frame.names ∨ ∃ p ∈ ps, p.name = k := by
  induction ps generalizing args frame missing r with
  | nil =>
    cases ran
    exact .inl mem
  | cons p ps ih =>
    have bound : ∀ {v}, k ∈ (frame.insert p.name v).names ∨ (∃ q ∈ ps, q.name = k) →
        k ∈ frame.names ∨ ∃ q ∈ p :: ps, q.name = k := by
      rintro v (here | ⟨q, later, same⟩)
      · exact (Bindings.of_mem_names_insert here).imp_right fun same => ⟨p, mem_cons_self, same.symm⟩
      · exact .inr ⟨q, mem_cons_of_mem _ later, same⟩
    rw [bindParams.eq_def] at ran
    dsimp only at ran
    cases args <;> cases named : kwargs.get? p.name <;> rw [named] at ran
    case nil.none =>
      cases default : p.default <;> rw [default] at ran
      case none => exact (ih ran).imp_right (Exists.imp fun q => And.imp_left (mem_cons_of_mem _))
      case some e =>
        obtain ⟨v, t, -, ran⟩ := ok_of_bind ran
        exact bound (ih ran)
    case cons.some => cases ran
    all_goals exact bound (ih ran)

theorem bindArgs_names (ran : bindArgs f args kwargs D r = (.ok frame, r')) (mem : k ∈ frame.names) :
    ∃ p ∈ f.params, p.name = k := by
  rw [bindArgs] at ran
  dsimp only at ran
  split at ran
  · cases ran
  · cases unknown : kwargs.names.find? fun k => f.params.all fun p => p.name != k <;> rw [unknown] at ran
    case some => cases ran
    case none =>
      obtain ⟨⟨bound, missing⟩, t, parameters, done⟩ := ok_of_bind ran
      dsimp only at done
      split at done
      · cases done
        exact (bindParams_names parameters mem).resolve_left not_mem_nil
      · cases done

end Exec

theorem Grammar.Statement.keyword {file scopes s ts} (h : Statement file scopes s ts) {k} (keyword : isKeyword k = true)
    (bound : k ∈ s.bound?) : ∃ line f, s = .define line f ∧ f.name = k := by
  cases h with
  | define => exact ⟨_, _, rfl, Option.some.inj bound⟩
  | @act _ _ t ts simple =>
    generalize kinds (t :: ts) = us at simple
    cases simple with
    | assign free =>
      obtain rfl := Option.some.inj bound
      cases free.symm.trans keyword
    | _ => cases bound

section Text
variable {source file : String} {script : Script} (compiled : Script.compile source file = .ok script) {k : String}
  (keyword : isKeyword k = true)
include compiled keyword

theorem define_of_keyword {s : Stmt} (inside : s.In script.body) (bound : k ∈ s.bound?) :
    ∃ line f, s = .define line f ∧ f.name = k := by
  obtain ⟨-, tokens, scanned, -⟩ := compile_ok compiled
  obtain ⟨scopes, used, statement, -⟩ := sits_of_compile compiled scanned inside
  exact statement.keyword keyword bound

theorem names_of_bound {ss part : List Stmt} (inside : ∀ s ∈ ss, s.In script.body) (front : part <+: ss)
    (bound : ∃ s ∈ part, k ∈ s.bound?) : Stmt.Names ss k := by
  obtain ⟨s, mem, bound⟩ := bound
  obtain ⟨line, f, rfl, same⟩ := define_of_keyword compiled keyword (inside s (front.subset mem)) bound
  exact ⟨line, f, front.subset mem, same⟩

/-- Which keywords a text binds. No assignment in it has a keyword as its target. At each point of a run, a keyword in the
namespace was there before or is the name of a function that the module defines; one in the frame of a call is a parameter of
the function called or the name of a function that its body defines. -/
theorem keywords_bound :
    (∀ s : Stmt, s.In script.body → k ∈ s.bound? → ∃ line f, s = .define line f ∧ f.name = k) ∧
    ∀ (σ : Type) (h : Natives σ),
      (∀ part ns host, part <+: script.body → k ∈ ((⟨file, part⟩ : Script).exec h ns host).2.1.names →
        k ∈ ns.names ∨ Stmt.Names script.body k) ∧
      ∀ line f, (Stmt.define line f).In script.body → ∀ args kwargs D run frame after,
        bindArgs f args kwargs D run = (.ok frame, after) → ∀ part K globals, part <+: f.body →
          k ∈ (execBlock h K (some globals) f.filename f.name part frame after).1.2.names →
          (∃ p ∈ f.params, p.name = k) ∨ Stmt.Names f.body k := by
  refine ⟨fun s => define_of_keyword compiled keyword, fun σ h => ⟨fun part ns host front mem => ?_, ?_⟩⟩
  · exact (execBlock_names rfl mem).imp_right (names_of_bound compiled keyword (fun _ => .here) front)
  · intro line f inside args kwargs D run frame after ran part K globals front mem
    refine (execBlock_names rfl mem).imp (bindArgs_names ran) (names_of_bound compiled keyword (fun s among => ?_) front)
    exact inside.deeper rfl among

end Text

/-- A function `None` with a parameter `True`. -/
def nothing : FunctionDef := ⟨"None", "None", "<test>", 1, [{ name := "True" }], [.act 1 .pass]⟩

theorem keywords_bound_none :
    Script.compile "def None(True): pass" "<test>" = .ok ⟨"<test>", [.define 1 nothing]⟩ ∧
    "None" ∈ ((⟨"<test>", [.define 1 nothing]⟩ : Script).exec Builtin.natives {} ()).2.1.names ∧
    Stmt.Names [.define 1 nothing] "None" ∧
    (bindArgs nothing [.none] {} (fun _ => pure .none) : Eval Unit Namespace) { host := () } =
      (.ok ⟨[("True", .none)]⟩, { host := () }) ∧
    ∃ p ∈ nothing.params, p.name = "True" := by
  have compiled : Script.compile "def None(True): pass" "<test>" = .ok ⟨"<test>", [.define 1 nothing]⟩ := by cbv
  have bound : "None" ∈ ((⟨"<test>", [.define 1 nothing]⟩ : Script).exec Builtin.natives {} ()).2.1.names := mem_cons_self
  have frame : (bindArgs nothing [.none] {} (fun _ => pure .none) : Eval Unit Namespace) { host := () } =
    (.ok ⟨[("True", .none)]⟩, { host := () }) := rfl
  refine ⟨compiled, bound, ?_, frame, ?_⟩
  · have named := ((keywords_bound compiled rfl).2 Unit Builtin.natives).1 _ {} () (prefix_refl _) bound
    exact named.resolve_left not_mem_nil
  · have named := ((keywords_bound compiled rfl).2 Unit Builtin.natives).2 1 nothing (.here mem_cons_self) _ _ _ _ _ _ frame []
      (callValue Builtin.natives 0) {} nil_prefix mem_cons_self
    refine named.resolve_right ?_
    rintro ⟨line, f, mem, same⟩
    cases mem_singleton.1 mem

end MonitoredVm
