import LineScript.Proofs.Grouping.Place
import LineScript.Proofs.Grouping.Run
import Mathlib.Data.List.Forall2

/-!
# Tokens and nodes

What the regions of a list of tokens must hold: `occurrences` are the tokens that have a node of
their own, `Represents` says which nodes a token may have, and `argumentCount` how many argument
lists its group has. `readLists` gives the nodes of regions in the order they are read.
-/

namespace LineScript

namespace Grouping

/-! ### Reading regions -/

mutual

/-- An element and the elements of its argument lists. -/
def readElement : Tree → List Tree
  | .call p name lists => .call p name lists :: readLists lists
  | t => [t]

/-- The elements of a list, each followed by those of its argument lists. -/
def readElements : List Tree → List Tree
  | [] => []
  | t :: ts => readElement t ++ readElements ts

/-- The elements of regions or argument lists. What is no list is read itself. -/
def readLists : List Tree → List Tree
  | [] => []
  | .call p name elements :: ls =>
    (if name = Tree.listName then readElements elements else [.call p name elements]) ++
      readLists ls
  | t :: ls => t :: readLists ls

end

lemma readElements_append (ts us : List Tree) :
    readElements (ts ++ us) = readElements ts ++ readElements us := by
  induction ts with
  | nil => rfl
  | cons t ts ih => rw [List.cons_append, readElements, readElements, ih, List.append_assoc]

lemma readLists_append (ts us : List Tree) :
    readLists (ts ++ us) = readLists ts ++ readLists us := by
  induction ts with
  | nil => rfl
  | cons t ts ih =>
    rw [List.cons_append]
    cases t with
    | call p name elements => rw [readLists, readLists, ih, List.append_assoc]
    | _ => simp [readLists, ih]

lemma readLists_listOf (place : Location) (siblings : List Tree) :
    readLists [listOf place siblings] = readElements siblings.reverse := by
  obtain ⟨q, hq⟩ := exists_listOf_reverse place siblings.reverse
  rw [List.reverse_reverse] at hq
  rw [hq, readLists, if_pos rfl, readLists, List.append_nil]

/-! ### Tokens and their nodes -/

/-- A token that has a node of its own. -/
def bearsNode (previous : Option Token) (t : Token) : Bool :=
  t.kind ∉ [TokenKind.newline, .comma, .colon, .rightParen, .rightBracket, .rightBrace, .eof] &&
    !(t.kind = .leftParen && previous.any (·.kind = .word))

lemma bearsNode_of_isAtom {previous : Option Token} {t : Token} (ht : isAtom t.kind = true) :
    bearsNode previous t = true := by
  cases hkind : t.kind <;> simp_all [isAtom, bearsNode]

lemma bearsNode_of_isCloser {previous : Option Token} {t : Token} (ht : isCloser t.kind = true) :
    bearsNode previous t = false := by
  cases hkind : t.kind <;> simp_all [isCloser, bearsNode]

lemma bearsNode_of_opens {previous : Option Token} {t : Token} {closer : TokenKind} {name : String}
    (ht : opens? t.kind = some (closer, name))
    (hparen : t.kind = .leftParen → previous.any (·.kind = .word) = false) :
    bearsNode previous t = true := by
  cases hkind : t.kind <;> rw [hkind] at ht hparen <;> simp [opens?] at ht
  all_goals simp [bearsNode, hkind, hparen]

/-- A token with those behind it. -/
abbrev Occurrence := Token × List Token

/-- The tokens that have nodes of their own, in order. -/
def occurrences (previous : Option Token) : List Token → List Occurrence
  | [] => []
  | t :: ts => (if bearsNode previous t then [(t, ts)] else []) ++ occurrences (some t) ts

/-- The commas before the end of the group that is open at the beginning of a list of tokens, those
within further groups aside; so many groups are open in that group. -/
def directCommas (depth : Nat) : List Token → Nat
  | [] => 0
  | t :: ts =>
    if isOpener t.kind then directCommas (depth + 1) ts
    else if isCloser t.kind then
      match depth with
      | 0 => 0
      | depth + 1 => directCommas depth ts
    else (if t.kind = .comma ∧ depth = 0 then 1 else 0) + directCommas depth ts

/-- The number of argument lists of a group, by the tokens behind its opening token. -/
def argumentCount (ts : List Token) : Nat :=
  if ts.head?.any (isCloser ·.kind) then 0 else directCommas 0 ts + 1

/-- The value of a token that is an operand by itself. -/
def constant? (t : Token) : Option Value :=
  match t.kind with
  | .word | .string | .number => some t.value
  | .trueWord => some (.bool true)
  | .falseWord => some (.bool false)
  | .nullWord => some .null
  | _ => none

/-- The node that a token, with those behind it, is read as. -/
inductive Represents : Token → List Token → Tree → Prop where
  | label {t u : Token} {ts : List Token} (ht : canLabel t.kind = true) (hu : u.kind = .colon) :
      Represents t (u :: ts) (.label t.place t.value.plain)
  | call {t u : Token} {ts : List Token} {lists : List Tree} (ht : t.kind = .word)
      (hu : u.kind = .leftParen) (hlists : lists.length = argumentCount ts) :
      Represents t (u :: ts) (.call t.place t.name lists)
  | group {t : Token} {ts : List Token} {closer : TokenKind} {name : String} {lists : List Tree}
      (ht : opens? t.kind = some (closer, name)) (hlists : lists.length = argumentCount ts) :
      Represents t ts (.call t.place name lists)
  | symbol {t : Token} {ts : List Token} (ht : t.kind = .symbol) (f : Fixity) :
      Represents t ts (.symbol t.place t.name f)
  | variable {t : Token} {ts : List Token} (ht : t.kind = .variable) :
      Represents t ts (.variable t.place t.name)
  | identifier {t : Token} {ts : List Token} (ht : t.kind = .word) (hfree : IsFree t ts) :
      Represents t ts (.identifier t.place t.name)
  | literal {t : Token} {ts : List Token} {v : Value} (hv : constant? t = some v)
      (hfree : IsFree t ts) : Represents t ts (.literal t.place v)

/-- The nodes are those of the tokens. -/
def Covers (os : List Occurrence) (nodes : List Tree) : Prop :=
  List.Forall₂ (fun o node => Represents o.1 o.2 node) os nodes

lemma Covers.append {os os' : List Occurrence} {nodes nodes' : List Tree} (h : Covers os nodes)
    (h' : Covers os' nodes') : Covers (os ++ os') (nodes ++ nodes') :=
  List.rel_append h h'

/-! ### Commas to come -/

variable {t : Token}

lemma directCommas_of_opener (ht : isOpener t.kind = true) (depth : Nat) (ts : List Token) :
    directCommas depth (t :: ts) = directCommas (depth + 1) ts := by
  rw [directCommas.eq_def]
  simp [ht]

lemma directCommas_of_closer (ht : isCloser t.kind = true) (depth : Nat) (ts : List Token) :
    directCommas (depth + 1) (t :: ts) = directCommas depth ts := by
  rw [directCommas.eq_def]
  simp [ht, isOpener_eq_false_of_isCloser ht]

lemma directCommas_zero_of_closer (ht : isCloser t.kind = true) (ts : List Token) :
    directCommas 0 (t :: ts) = 0 := by
  rw [directCommas.eq_def]
  simp [ht, isOpener_eq_false_of_isCloser ht]

lemma directCommas_of_comma (ht : t.kind = .comma) (depth : Nat) (ts : List Token) :
    directCommas depth (t :: ts) = (if depth = 0 then 1 else 0) + directCommas depth ts := by
  rw [directCommas.eq_def]
  simp [ht, isOpener, isCloser, opens?]

lemma directCommas_of_other (hopener : isOpener t.kind = false) (hcloser : isCloser t.kind = false)
    (hcomma : t.kind ≠ .comma) (depth : Nat) (ts : List Token) :
    directCommas depth (t :: ts) = directCommas depth ts := by
  rw [directCommas.eq_def]
  simp [hopener, hcloser, hcomma]

lemma directCommas_of_isAtom (ht : isAtom t.kind = true) (depth : Nat) (ts : List Token) :
    directCommas depth (t :: ts) = directCommas depth ts :=
  directCommas_of_other (isOpener_eq_false_of_isAtom ht) (isCloser_eq_false_of_isAtom ht)
    (ne_of_isAtom ht).1 depth ts

end Grouping

end LineScript
