import LineScript.Compilation
import Mathlib.Tactic.Common

/-!
# Sessions

A compiler answers one request after the other, and the collector of the last source stays with it,
also after a failure. The next source starts with what all sources of these options share, the
limit on diagnostics, so no answer depends on those before it.
-/

namespace LineScript

/-! ### The limit stays -/

namespace Collector

lemma limit_add (c : Collector) (d : Diagnostic) : (c.add d).1.limit = c.limit := by
  unfold add
  dsimp only
  split_ifs <;> rfl

/-- Nothing but the limit is left of a collector that turns to another source. -/
lemma start_congr {c c' : Collector} (h : c.limit = c'.limit) (lines : List String) :
    c.start lines = c'.start lines := by
  simp [start, h]

end Collector

namespace Compiler

lemma limit_finishRegions (d : Dialect) (c : Collector) (regions : List Tree) :
    (finishRegions d c regions).1.limit = c.limit := by
  fun_induction finishRegions d c regions with
  | case1 c => rfl
  | case2 c region regions finished tree hresult c' others hothers ih =>
    rwa [hothers] at ih
  | case3 c region regions finished e hresult c' hadd c'' others hothers ih =>
    have hlimit := Collector.limit_add c e
    rw [hadd] at hlimit
    rw [hothers] at ih
    exact ih.trans hlimit
  | case4 c region regions finished e hresult c' hadd =>
    have hlimit := Collector.limit_add c e
    rwa [hadd] at hlimit
  | case5 => rfl

lemma limit_treesOf (options : Options) (c : Collector) (regions : List Tree) :
    (treesOf options c regions).1.limit = c.limit := by
  unfold treesOf
  split_ifs
  · exact limit_finishRegions options.dialect c regions
  · rfl

/-! ### Compilers with the same options -/

/-- A compiler has the given options, and its collector has their limit. -/
structure Follows (compiler : Compiler) (options : Options) : Prop where
  options_eq : compiler.options = options
  limit_eq : compiler.collector.limit = options.maxErrors

variable {compiler : Compiler} {options : Options}

lemma follows_new (options : Options) : (new options).Follows options := ⟨rfl, rfl⟩

/-- A source is compiled as if it were the first. -/
lemma compile_eq_new (h : compiler.Follows options) (source file : String) :
    compiler.compile source file = (new options).compile source file := by
  have hstart (lines : List String) :
      compiler.collector.start lines = (new options).collector.start lines :=
    Collector.start_congr h.limit_eq lines
  unfold compile
  rw [h.options_eq, hstart]
  rfl

lemma expression_eq_new (h : compiler.Follows options) (text file : String) :
    compiler.expression text file = (new options).expression text file := by
  unfold expression
  rw [compile_eq_new h]

/-- One answer does not depend on what the compiler did before. -/
theorem answer_eq_new (h : compiler.Follows options) (request : Request) :
    compiler.answer request = (new options).answer request := by
  cases request with
  | compile source file => rw [answer, answer, compile_eq_new h]
  | expression text file => rw [answer, answer, expression_eq_new h]

lemma follows_compile (h : compiler.Follows options) (source file : String) :
    (compiler.compile source file).1.Follows options := by
  unfold compile
  dsimp only
  split
  · exact ⟨h.options_eq, (Collector.limit_add _ _).trans h.limit_eq⟩
  · exact ⟨h.options_eq, h.limit_eq⟩
  · exact ⟨h.options_eq, (limit_treesOf _ _ _).trans h.limit_eq⟩

lemma follows_expression (h : compiler.Follows options) (text file : String) :
    (compiler.expression text file).1.Follows options := by
  have hcompile := follows_compile h text file
  unfold expression
  dsimp only
  split
  · exact hcompile
  · split
    · exact hcompile
    · exact hcompile
    · -- the diagnostic about several regions is added behind the compilation
      exact ⟨hcompile.options_eq, (Collector.limit_add _ _).trans hcompile.limit_eq⟩

/-- The options and the limit stay, whatever the answer is. -/
theorem follows_answer (h : compiler.Follows options) (request : Request) :
    (compiler.answer request).1.Follows options := by
  cases request with
  | compile source file => exact follows_compile h source file
  | expression text file => exact follows_expression h text file

/-! ### Requests in a row -/

lemma answers_eq_map (h : compiler.Follows options) (requests : List Request) :
    compiler.answers requests = requests.map fun request => ((new options).answer request).2 := by
  induction requests generalizing compiler with
  | nil => rfl
  | cons request requests ih =>
    rw [answers, List.map_cons, ← answer_eq_new h]
    exact congrArg (_ :: ·) (ih (follows_answer h request))

/-- Every answer of a compiler is the one that a new compiler with the same options gives. -/
theorem answers_forget (options : Options) (requests : List Request) :
    (new options).answers requests =
      requests.map fun request => ((new options).answer request).2 :=
  answers_eq_map (follows_new options) requests

end Compiler

end LineScript
