import LineScript.CommandLine
import LineScript.Proofs.Compilation.Printing

/-!
# What the command shows of a source

A source that cannot be read or does not compile leaves the standard output empty. The trees of one
that compiles are shown as they are rendered or printed, one after the other, but each of them is
made into a text only when its turn comes. A tree with an integer that has too many digits has no
text, and then all trees before it have been shown already (`run_shows_trees`).
-/

namespace LineScript

namespace CommandLine

open Compiler

/-! ### Exit codes -/

lemma exitCode_reportFailure_ne_success (verbose : Bool) (failure : Failure) :
    (reportFailure verbose failure).2 ≠ success := by
  cases failure with
  | outside origin => cases origin <;> exact Nat.succ_ne_zero _
  | _ => exact Nat.succ_ne_zero _

/-! ### Texts -/

lemma mapM_cons_eq_ok_iff {α : Type} {text : α → Except Failure String} {a : α} {as : List α}
    {lines : List String} : (a :: as).mapM text = .ok lines ↔
      ∃ line others, text a = .ok line ∧ as.mapM text = .ok others ∧ lines = line :: others := by
  rw [List.mapM_cons]
  cases text a with
  | error failure => simp [bind, Except.bind]
  | ok line => cases as.mapM text <;> simp [bind, Except.bind, pure, Except.pure, eq_comm]

/-- The texts of things that have one come before those of the others. -/
lemma texts_append {α : Type} {text : α → Except Failure String} {as : List α}
    {lines : List String} (h : as.mapM text = .ok lines) (bs : List α) :
    texts text (as ++ bs) = (lines ++ (texts text bs).1, (texts text bs).2) := by
  induction as generalizing lines with
  | nil =>
    obtain rfl : [] = lines := Except.ok.inj h
    rfl
  | cons a as ih =>
    obtain ⟨line, others, ha, has, rfl⟩ := mapM_cons_eq_ok_iff.mp h
    rw [List.cons_append, texts, ha]
    simp only [ih has]
    rfl

lemma texts_of_mapM {α : Type} {text : α → Except Failure String} {as : List α}
    {lines : List String} (h : as.mapM text = .ok lines) : texts text as = (lines, none) := by
  have happend := texts_append h []
  rw [List.append_nil] at happend
  rw [happend, texts, List.append_nil]

lemma exists_mapM {α : Type} {text : α → Except Failure String} {as : List α}
    (h : ∀ a ∈ as, ∃ line, text a = .ok line) : ∃ lines, as.mapM text = .ok lines := by
  induction as with
  | nil => exact ⟨[], rfl⟩
  | cons a as ih =>
    obtain ⟨⟨line, hline⟩, has⟩ := List.forall_mem_cons.mp h
    obtain ⟨lines, hlines⟩ := ih has
    exact ⟨line :: lines, mapM_cons_eq_ok_iff.mpr ⟨line, lines, hline, hlines, rfl⟩⟩

/-- A text without an escape character is shown as it is. -/
lemma shown_eq_self {lines : List String} (h : ∀ line ∈ lines, '\x1b' ∉ line.toList) :
    shown lines = lines :=
  (List.map_congr_left fun line hline => Text.withoutControls_of_not_mem (h line hline)).trans
    (List.map_id lines)

/-! ### The trees of a source -/

/-- How a tree is written. -/
def Invocation.textOf (i : Invocation) : Tree → Except Failure String :=
  if i.tree then Tree.printed else Tree.render

/-- What is shown on the standard output are the texts of trees, up to control sequences in them. -/
def Output.Shows (out : Output) (i : Invocation) (trees : List Tree) : Prop :=
  ∃ lines, trees.mapM i.textOf = .ok lines ∧ out.stdout = shown lines ∧
    ((∀ line ∈ lines, '\x1b' ∉ line.toList) → out.stdout = lines)

/-- The tree has an integer with too many digits. -/
def HasLarge (t : Tree) : Prop := t.parts.any Tree.isLarge = true

variable {i : Invocation} {options : Options} {stderr : List String} {source file : String}
  {compiled : Compiled} {failure : Failure}

/-- A compiled tree can be written unless it has an integer with too many digits. -/
lemma textOf_cases (i : Invocation) (h : resultOf options source file = .ok compiled) {t : Tree}
    (ht : t ∈ compiled.trees) :
    (HasLarge t ∧ i.textOf t = .error (.numeral .tooLarge)) ∨
      (¬HasLarge t ∧ ∃ line, i.textOf t = .ok line) := by
  obtain ⟨ts, -, hall⟩ := all_feedsInLabels_of_resultOf h
  rw [Invocation.textOf, HasLarge]
  obtain ⟨hlarge, hrender, hprinted⟩ | ⟨hsmall, hrender, hprinted⟩ := Tree.render_cases (hall t ht)
  · refine .inl ⟨hlarge, ?_⟩
    cases i.tree
    · exact hrender
    · exact hprinted
  · refine .inr ⟨Bool.eq_false_iff.mp hsmall, ?_⟩
    cases i.tree
    · exact ⟨_, hrender⟩
    · exact ⟨_, hprinted⟩

lemma showTrees_of_error (h : resultOf options source file = .error failure) :
    (showTrees i options stderr source file).exitCode ≠ success ∧
      (showTrees i options stderr source file).stdout = [] := by
  have hresult : ((new options).compile source file).2.result = .error failure := h
  unfold showTrees
  simp only [hresult]
  exact ⟨exitCode_reportFailure_ne_success i.verbose failure, rfl⟩

lemma shows_of_mapM {out : Output} {trees : List Tree} {lines : List String}
    (hlines : trees.mapM i.textOf = .ok lines) (hout : out.stdout = shown lines) :
    out.Shows i trees :=
  ⟨lines, hlines, hout, fun hplain => hout.trans (shown_eq_self hplain)⟩

lemma showTrees_of_mapM {lines : List String} (h : resultOf options source file = .ok compiled)
    (hlines : compiled.trees.mapM i.textOf = .ok lines) :
    (showTrees i options stderr source file).exitCode = success ∧
      (showTrees i options stderr source file).Shows i compiled.trees := by
  have hresult : ((new options).compile source file).2.result = .ok compiled := h
  have htexts := texts_of_mapM hlines
  unfold Invocation.textOf at htexts
  unfold showTrees
  simp only [hresult, htexts, true_and]
  exact shows_of_mapM hlines rfl

lemma showTrees_of_tooLarge {front back : List Tree} {t : Tree} {lines : List String}
    (h : resultOf options source file = .ok compiled) (hsplit : compiled.trees = front ++ t :: back)
    (hlines : front.mapM i.textOf = .ok lines) (ht : i.textOf t = .error (.numeral .tooLarge)) :
    (showTrees i options stderr source file).exitCode = internalError ∧
      (showTrees i options stderr source file).Shows i front := by
  have hresult : ((new options).compile source file).2.result = .ok compiled := h
  have hrest : texts i.textOf (t :: back) = ([], some (.numeral .tooLarge)) := by rw [texts, ht]
  have htexts := texts_append hlines (t :: back)
  rw [hrest, List.append_nil, ← hsplit] at htexts
  unfold Invocation.textOf at htexts
  unfold showTrees
  simp only [hresult, htexts]
  exact ⟨rfl, shows_of_mapM hlines rfl⟩

/-! ### The command -/

/-- A source is given: an expression, or a file, whose text may be unreadable. -/
inductive Given (files : String → Option Stored) (i : Invocation) :
    String → Except Failure String → Prop where
  | expression {text : String} (hfile : i.file = none) (hexpression : i.expression = some text) :
      Given files i expressionName (.ok text)
  | file {name : String} {octets : List UInt8} (hfile : i.file = some name)
      (hexpression : i.expression = none) (hstored : files name = some (.file octets)) :
      Given files i (Stored.shownPath name) (Stored.fileText octets)

/-- The arguments ask for the trees of a source. -/
structure AsksForTrees (files : String → Option Stored) (arguments : List String) (i : Invocation)
    (file : String) (source : Except Failure String) : Prop where
  reads : readArguments arguments = .ok i
  version : i.version = false
  help : i.help = false
  tokens : i.tokens = false
  extra : i.extra = []
  given : Given files i file source

variable {files : String → Option Stored} {arguments : List String}
  {input : Except Failure String}

lemma AsksForTrees.run_eq (h : AsksForTrees files arguments i file input)
    (environment : Environment) : run files environment arguments =
      process i environment file input := by
  have hcarry : run files environment arguments = carryOut files environment i := by
    simp only [run, h.reads, h.version, h.help]
    rfl
  rw [hcarry]
  cases h.given with
  | expression hfile hexpression => simp only [carryOut, hfile, hexpression, h.extra, Option.map]
  | file hfile hexpression hstored =>
    simp only [carryOut, hfile, hexpression, hstored, h.extra, Option.map]

/-- The options of a run in an environment. -/
def optionsIn (i : Invocation) (environment : Environment) : Options :=
  runOptions i environment.options.1

lemma AsksForTrees.run_eq_showTrees (h : AsksForTrees files arguments i file (.ok source))
    (environment : Environment) : ∃ stderr, run files environment arguments =
      showTrees i (optionsIn i environment) stderr source file := by
  rw [h.run_eq environment, process, optionsIn]
  simp only [h.tokens]
  exact ⟨_, rfl⟩

/-- The command exits with a failure and shows nothing if the source cannot be read or does not
compile. Otherwise all trees are shown, if every one of them has a text, and no tree from the first
one on that has an integer of too many digits, which is a failure of the compiler itself. -/
theorem run_shows_trees (h : AsksForTrees files arguments i file input)
    (environment : Environment) :
    let out := run files environment arguments
    let result := input >>= fun source => resultOf (optionsIn i environment) source file
    (∀ failure, result = .error failure → out.exitCode ≠ success ∧ out.stdout = []) ∧
    ∀ compiled, result = .ok compiled →
      ((∀ t ∈ compiled.trees, ¬HasLarge t) →
        out.exitCode = success ∧ out.Shows i compiled.trees) ∧
      ∀ front t back, compiled.trees = front ++ t :: back → (∀ u ∈ front, ¬HasLarge u) →
        HasLarge t → out.exitCode = internalError ∧ out.Shows i front := by
  intro out result
  cases input with
  | error fault =>
    have hout : out = process i environment file (.error fault) := h.run_eq environment
    have hresult : result = .error fault := rfl
    refine ⟨fun failure _ => ?_, fun compiled hcompiled => ?_⟩
    · rw [hout, process]
      exact ⟨exitCode_reportFailure_ne_success i.verbose fault, rfl⟩
    · rw [hresult] at hcompiled
      cases hcompiled
  | ok source =>
    obtain ⟨stderr, hout⟩ := h.run_eq_showTrees environment
    have hout : out = showTrees i (optionsIn i environment) stderr source file := hout
    refine ⟨fun failure hfailure => ?_, fun compiled hcompiled => ⟨fun hsmall => ?_, ?_⟩⟩
    · rw [hout]
      exact showTrees_of_error hfailure
    · obtain ⟨lines, hlines⟩ := exists_mapM fun t ht =>
        ((textOf_cases i hcompiled ht).resolve_left fun hlarge => hsmall t ht hlarge.1).2
      rw [hout]
      exact showTrees_of_mapM hcompiled hlines
    · intro front t back hsplit hfront hlarge
      have htrees : ∀ u ∈ front, u ∈ compiled.trees := fun u hu =>
        hsplit ▸ List.mem_append_left _ hu
      have ht : t ∈ compiled.trees := hsplit ▸ List.mem_append_right _ List.mem_cons_self
      obtain ⟨lines, hlines⟩ := exists_mapM fun u hu =>
        ((textOf_cases i hcompiled (htrees u hu)).resolve_left fun h => hfront u hu h.1).2
      have hfault : i.textOf t = .error (.numeral .tooLarge) :=
        ((textOf_cases i hcompiled ht).resolve_right fun h => h.1 hlarge).2
      rw [hout]
      exact showTrees_of_tooLarge hcompiled hsplit hlines hfault

/-- The trees of `k: 1 + 2` and of `x` are shown on one line for every node. -/
theorem run_shows_entry :
    let source := "k: 1 + 2\nx"
    let arguments := ["--tree", "-e", source]
    let i : Invocation := { expression := some source, tree := true }
    let environment : Environment := ⟨none, none, none⟩
    let out := run (fun _ => none) environment arguments
    AsksForTrees (fun _ => none) arguments i expressionName (.ok source) ∧
    ∃ compiled, resultOf (optionsIn i environment) source expressionName = .ok compiled ∧
      (∀ t ∈ compiled.trees, ¬HasLarge t) ∧ out.exitCode = success ∧
      out.Shows i compiled.trees := by
  intro source arguments i environment out
  have hasks : AsksForTrees (fun _ => none) arguments i expressionName (.ok source) :=
    ⟨rfl, rfl, rfl, rfl, rfl, .expression rfl rfl⟩
  have hcompiles : (resultOf (optionsIn i environment) source expressionName).toOption.any
      (fun compiled => compiled.trees.all fun t => !t.parts.any Tree.isLarge) = true := by
    decide +kernel
  obtain ⟨compiled, hcompiled, hsmall⟩ := (Option.any_eq_true _ _).mp hcompiles
  have hcompiled := Traced.eq_ok_of_toOption hcompiled
  have hsmall : ∀ t ∈ compiled.trees, ¬HasLarge t := fun t ht => by
    simpa [HasLarge] using List.all_eq_true.mp hsmall t ht
  exact ⟨hasks, compiled, hcompiled, hsmall,
    ((run_shows_trees hasks environment).2 compiled hcompiled).1 hsmall⟩

/-! ### An integer that is read and not written -/

open Text

variable {digits : List Char}

/-- The number that hexadecimal digits spell. -/
def hexadecimalValue (digits : List Char) : Nat := ofDigits 16 (digits.filterMap hexDigitValue?)

/-- Hexadecimal digits may be as many as they like. -/
lemma hexadecimal_of_forall (hne : digits ≠ [])
    (hdigits : ∀ c ∈ digits, (hexDigitValue? c).isSome = true) :
    Lexeme.hexadecimal digits = .ok ⟨.number, .int (hexadecimalValue digits), digits.length + 2,
      Nat.succ_pos _⟩ := by
  have htake : digits.takeWhile (fun c => (hexDigitValue? c).isSome) = digits :=
    List.takeWhile_eq_self_iff.mpr hdigits
  have hempty : digits.isEmpty = false := by simpa using hne
  rw [Lexeme.hexadecimal]
  simp only [htake, hempty]
  rfl

/-- The tokens of a line with `1` and a line with a hexadecimal number. -/
lemma reads_one_then_hexadecimal (hne : digits ≠ [])
    (hdigits : ∀ c ∈ digits, (hexDigitValue? c).isSome = true) (file : String) : ∃ p q r e,
    Reads file (.start ('1' :: '\n' :: '0' :: 'x' :: digits) 1) [⟨.number, .int 1, p⟩,
      ⟨.newline, .null, q⟩, ⟨.number, .int (hexadecimalValue digits), r⟩,
      ⟨.eof, .null, e⟩] := by
  have hone : Lexeme.scan '1' ('\n' :: '0' :: 'x' :: digits) =
      .ok ⟨.number, .int 1, 1, Nat.one_pos⟩ := rfl
  have hfeed : Lexeme.scan '\n' ('0' :: 'x' :: digits) =
      .ok ⟨.newline, .null, 1, Nat.one_pos⟩ := rfl
  have hnumber : Lexeme.scan '0' ('x' :: digits) = .ok _ := hexadecimal_of_forall hne hdigits
  -- the cursors before `1` and before the number
  let first : Cursor := .start ('1' :: '\n' :: '0' :: 'x' :: digits) 1
  let third : Cursor := (first.skip 1).skip 1
  have hend : (third.skip (digits.length + 2)).rest = [] := by
    rw [Cursor.rest_skip, List.drop_eq_nil_iff]
    exact Nat.le_refl _
  have hlast : Reads file (third.skip (digits.length + 2)) _ :=
    .last (congrArg Lexeme.gap hend) hend
  have hthird : Reads file third _ := .lexeme (n := 0) rfl rfl hnumber hlast
  have hsecond : Reads file (first.skip 1) _ := .lexeme (n := 0) rfl rfl hfeed hthird
  exact ⟨_, _, _, _, .lexeme (n := 0) rfl rfl hone hsecond⟩

/-- The trees of these lines. -/
lemma resultOf_one_then_hexadecimal (hsource : source.toList = '1' :: '\n' :: '0' :: 'x' :: digits)
    (hne : digits ≠ []) (hdigits : ∀ c ∈ digits, (hexDigitValue? c).isSome = true)
    (file : String) : ∃ compiled p r, resultOf {} source file = .ok compiled ∧
      compiled.trees = [.literal p (.int 1), .literal r (.int (hexadecimalValue digits))] := by
  obtain ⟨p, q, r, e, hreads⟩ := reads_one_then_hexadecimal hne hdigits file
  rw [← hsource, ← tokens_eq_ok_iff] at hreads
  have hregions : regionsOf {} source file = .ok (4, [
      .call p Tree.listName [.literal p (.int 1)],
      .call r Tree.listName [.literal r (.int (hexadecimalValue digits))]]) := by
    rw [regionsOf, hreads]
    rfl
  obtain ⟨-, ⟨-, hresult⟩ | ⟨hcomplaints, -⟩⟩ :=
    compile_eq hregions (.inr (Int.ofNat_lt.mpr (Nat.succ_pos 99)))
  · exact ⟨_, p, r, hresult, rfl⟩
  · exact absurd rfl hcomplaints

lemma foldl_replicate_fifteen (k n : Nat) :
    (List.replicate n 15).foldl (fun n d => n * 16 + d) k + 1 = (k + 1) * 16 ^ n := by
  induction n generalizing k with
  | zero => simp
  | succ n ih =>
    have hstep : k * 16 + 15 + 1 = (k + 1) * 16 := by omega
    rw [List.replicate_succ, List.foldl_cons, ih, hstep, Nat.pow_succ, Nat.mul_assoc,
      Nat.mul_comm 16]

lemma ofDigits_replicate_fifteen (n : Nat) : ofDigits 16 (List.replicate n 15) + 1 = 16 ^ n :=
  (foldl_replicate_fifteen 0 n).trans (by rw [Nat.zero_add, Nat.one_mul])

/-- An integer of 3600 hexadecimal digits has more than 4300 decimal ones. -/
lemma isTooLarge_hexadecimalValue :
    Numeral.isTooLarge (hexadecimalValue (List.replicate 3600 'F')) = true := by
  have hdigit : hexDigitValue? 'F' = some 15 := rfl
  have hbound : Numeral.bound < 16 ^ 3600 := by decide +kernel
  have hvalue := ofDigits_replicate_fifteen 3600
  apply decide_eq_true
  rw [Int.natAbs_natCast, hexadecimalValue, List.filterMap_replicate_of_some hdigit]
  omega

lemma render_int (p : Location) (n : Int) : (Tree.literal p (.int n)).render =
    if Numeral.isTooLarge n then .error (.numeral .tooLarge) else .ok (toString n) := by
  have hfault : (Tree.literal p (.int n)).textFault? =
      if Numeral.isTooLarge n then some (.numeral .tooLarge) else none := rfl
  rw [Tree.render, hfault]
  cases Numeral.isTooLarge n <;> rfl

lemma render_one (p : Location) : (Tree.literal p (.int 1)).render = .ok "1" := by
  have hsmall : Numeral.isTooLarge 1 = false := by decide +kernel
  rw [render_int, hsmall, if_neg Bool.false_ne_true]
  rfl

/-- The first tree of a line with `1` and a line with a hexadecimal number is shown before the
second one fails, if it is too large. -/
lemma showTrees_one_then_large (hi : i.tree = false)
    (hsource : source.toList = '1' :: '\n' :: '0' :: 'x' :: digits) (hne : digits ≠ [])
    (hdigits : ∀ c ∈ digits, (hexDigitValue? c).isSome = true)
    (hlarge : Numeral.isTooLarge (hexadecimalValue digits) = true) :
    (showTrees i {} stderr source file).exitCode = internalError ∧
      (showTrees i {} stderr source file).stdout ≠ [] := by
  obtain ⟨compiled, p, r, hresult, htrees⟩ :=
    resultOf_one_then_hexadecimal hsource hne hdigits file
  have htext : i.textOf = Tree.render := by rw [Invocation.textOf, hi, if_neg Bool.false_ne_true]
  have hlines : [Tree.literal p (.int 1)].mapM i.textOf = .ok ["1"] := by
    rw [htext]
    exact mapM_cons_eq_ok_iff.mpr ⟨"1", [], render_one p, rfl, rfl⟩
  have hfault : i.textOf (.literal r (.int (hexadecimalValue digits))) =
      .error (.numeral .tooLarge) := by
    rw [htext, render_int, hlarge, if_pos rfl]
  rw [← List.singleton_append] at htrees
  obtain ⟨hexit, lines, hshown, hstdout, -⟩ := showTrees_of_tooLarge hresult htrees hlines hfault
  obtain rfl := Except.ok.inj (hlines.symm.trans hshown)
  refine ⟨hexit, ?_⟩
  rw [hstdout]
  exact List.cons_ne_nil _ _

/-- The tree of the line `1` is shown before that of an integer of 3600 hexadecimal digits
fails. -/
theorem run_shows_tree_before_large :
    ¬∀ (files : String → Option Stored) (environment : Environment) (arguments : List String)
      (i : Invocation) (file source : String),
      AsksForTrees files arguments i file (.ok source) →
      let out := run files environment arguments
      (out.exitCode ≠ success → out.stdout = []) ∧
      (out.exitCode = success → ∃ compiled lines,
        resultOf (optionsIn i environment) source file = .ok compiled ∧
        compiled.trees.mapM i.textOf = .ok lines ∧ out.stdout = lines) := by
  intro hclaim
  obtain ⟨digits, hall⟩ : ∃ digits, digits = List.replicate 3600 'F' := ⟨_, rfl⟩
  obtain ⟨source, htext⟩ : ∃ source, source = "1\n0x" ++ String.ofList digits := ⟨_, rfl⟩
  let i : Invocation := { expression := some source }
  have hasks : AsksForTrees (fun _ => none) ["-e", source] i expressionName (.ok source) :=
    ⟨rfl, rfl, rfl, rfl, rfl, .expression rfl rfl⟩
  have hsource : source.toList = '1' :: '\n' :: '0' :: 'x' :: digits := by
    simp [htext]
  have hne : digits ≠ [] := by
    rw [hall]
    exact List.cons_ne_nil _ _
  have hdigits : ∀ c ∈ digits, (hexDigitValue? c).isSome = true := by
    intro c hc
    rw [hall] at hc
    obtain rfl := List.eq_of_mem_replicate hc
    rfl
  have hlarge : Numeral.isTooLarge (hexadecimalValue digits) = true := by
    rw [hall]
    exact isTooLarge_hexadecimalValue
  obtain ⟨stderr, hrun⟩ := hasks.run_eq_showTrees ⟨none, none, none⟩
  obtain ⟨hexit, hstdout⟩ :=
    showTrees_one_then_large (i := i) rfl hsource hne hdigits hlarge
  have hempty := (hclaim _ ⟨none, none, none⟩ _ i expressionName source hasks).1
  have hshows : run (fun _ => none) ⟨none, none, none⟩ ["-e", source] =
      showTrees i {} stderr source expressionName := hrun
  rw [hshows] at hempty
  apply hstdout
  apply hempty
  rw [hexit]
  decide

end CommandLine

end LineScript
