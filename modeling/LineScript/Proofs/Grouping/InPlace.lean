import LineScript.Proofs.Grouping.Place

/-!
# Grouping in place

Grouping as it runs over a list of tokens: a position moves to the right, and what is at it and
behind it is looked at. There is a loop for the regions, one for the siblings of a list and one for
the lists of a group, and the last two call each other, so that nothing in their form says that they
end. `Descent.Ends` says of a computation that it does, and also that on its way it neither goes
back nor looks at anything behind a certain position.
-/

namespace LineScript

namespace Grouping.InPlace

/-! ### Computations at a position -/

/-- A position in a list of tokens, with all positions that were looked at so far. -/
structure Reader where
  position : ℕ
  looks : List ℕ

/-- A computation that moves a reader. It may go on without end, and then it comes to nothing; if it
fails, the reader stays where it was. -/
abbrev Descent (α : Type) := ExceptT Failure (StateT Reader Option) α

/-- A result as a computation that does not move. -/
def ofResult {α : Type} (r : Except Failure α) : Descent α := ExceptT.mk (pure r)

/-- What a turn of a loop comes to: the trees to go on with, or the trees to leave with. The last
tree comes first. -/
inductive Turn where
  | again (ts : List Tree)
  | leave (ts : List Tree)

/-- A list of tokens and what grouping knows beside it. -/
structure Script where
  source : Source
  tokens : List Token

/-- There are no tokens at all. -/
def noToken : Failure := .brokenInvariant "there is no token at this position" none

/-- A list of siblings ends at such a token, also within a group. -/
def endsList (kind : TokenKind) : Bool :=
  isCloser kind || kind = .comma || kind = .eof

namespace Script

/-- The token at the `k`th place from the position on. Behind the last token there is the last token
again. -/
def look (d : Script) (k : ℕ) : Descent Token := do
  let i := (← get).position + k
  modify fun r => { r with looks := i :: r.looks }
  match d.tokens[i]?.or d.tokens.getLast? with
  | some t => return t
  | none => throw noToken

/-- Move to the next token, but not from one that ends a script. -/
def advance (d : Script) : Descent Unit := do
  let t ← d.look 0
  if t.kind ≠ .eof then modify fun r => { r with position := r.position + 1 }

/-- Move on if the token is of a kind. -/
def accept (d : Script) (kind : TokenKind) : Descent Bool := do
  let t ← d.look 0
  if t.kind = kind then
    d.advance
    return true
  else return false

/-- The token is the name of a label, with the colon behind it. -/
def isLabel (d : Script) : Descent Bool := do
  let t ← d.look 0
  if canLabel t.kind then return (← d.look 1).kind = .colon else return false

/-- The token must not stand where it does. -/
def refuse {α : Type} (d : Script) (t : Token) : Descent α :=
  if t.kind = .eof then ofResult (d.source.complain .unexpectedEnd t.place)
  else ofResult (d.source.unexpected t)

/-! ### The loops -/

mutual

/-- The siblings up to the end of a list; a line feed ends it outside of all groups. -/
def elements (d : Script) (inGroup : Bool) (siblings : List Tree) : Descent (List Tree) := do
  match ← d |>.elementTurn inGroup siblings with
  | .again siblings => d |>.elements inGroup siblings
  | .leave siblings => return siblings
partial_fixpoint

def elementTurn (d : Script) (inGroup : Bool) (siblings : List Tree) : Descent Turn := do
  let t ← d.look 0
  if t.kind = .newline then
    if inGroup then
      d.advance
      return .again siblings
    else return .leave siblings
  else if endsList t.kind then return .leave siblings
  else return .again ((← d |>.element siblings) :: siblings)
partial_fixpoint

/-- A label, a call, a group, an operand or a symbol. -/
def element (d : Script) (siblings : List Tree) : Descent Tree := do
  let t ← d.look 0
  if ← d.isLabel then
    d.advance
    d.advance
    return .label t.place (← ofResult (Source.plain t.value))
  else if t.kind = .word then
    d.advance
    if ← d.accept .leftParen then
      return .call t.place t.name (← d |>.arguments .rightParen t)
    else return atom d.source.registry siblings t
  else
    d.advance
    match opens? t.kind with
    | some (closer, name) => return .call t.place name (← d |>.arguments closer t)
    | none => if isAtom t.kind then return atom d.source.registry siblings t else d.refuse t
partial_fixpoint

/-- The argument lists of a group, with the token that closes it. -/
def arguments (d : Script) (closer : TokenKind) (opener : Token) : Descent (List Tree) := do
  if ← d.accept closer then return []
  else return (← d |>.argumentLists closer opener []).reverse
partial_fixpoint

/-- The argument lists of a group that is not empty, the last of them first. -/
def argumentLists (d : Script) (closer : TokenKind) (opener : Token) (done : List Tree) :
    Descent (List Tree) := do
  match ← d |>.argumentTurn closer opener done with
  | .again done => d |>.argumentLists closer opener done
  | .leave done => return done
partial_fixpoint

def argumentTurn (d : Script) (closer : TokenKind) (opener : Token) (done : List Tree) :
    Descent Turn := do
  let start ← d.look 0
  let list := listOf start.place (← d |>.elements true [])
  if ← d.accept .comma then return .again (list :: done)
  else if ← d.accept closer then return .leave (list :: done)
  else
    let t ← d.look 0
    if t.kind = .eof then
      ofResult (d.source.complain (.unterminatedGroup (closerText closer)) opener.place)
    else d.refuse t
partial_fixpoint

end

def regionTurn (d : Script) (regions : List Tree) : Descent Turn := do
  if (← d.look 0).kind = .eof then return .leave regions
  else if ← d.accept .newline then return .again regions
  else
    let start ← d.look 0
    let siblings ← d.elements false []
    let t ← d.look 0
    if t.kind = .newline ∨ t.kind = .eof then
      return .again (.call start.place Tree.listName siblings.reverse :: regions)
    else d.refuse t

/-- The regions up to the end of the script, the last of them first. -/
def regionList (d : Script) (regions : List Tree) : Descent (List Tree) := do
  match ← d.regionTurn regions with
  | .again regions => d |>.regionList regions
  | .leave regions => return regions
partial_fixpoint

/-- The regions of the script. -/
def regions (d : Script) : Descent (List Tree) := do return (← d.regionList []).reverse

end Script

/-! ### Computations that end -/

/-- The reader has neither come nor looked behind a position. -/
def Reader.IsWithin (stop : ℕ) (r : Reader) : Prop :=
  r.position ≤ stop ∧ ∀ k ∈ r.looks, k ≤ stop

/-- From a position on the computation ends, never goes back and neither moves nor looks behind
`stop`. Its result and the position it has come to are related by `P`, or its failure is one of
`E`. -/
def Descent.Ends {α : Type} (stop i : ℕ) (m : Descent α) (P : α → ℕ → Prop)
    (E : Failure → Prop) : Prop :=
  ∀ r : Reader, r.position = i → r.IsWithin stop → ∃ result r', m.run.run r = some (result, r') ∧
    i ≤ r'.position ∧ r'.IsWithin stop ∧
    match result with
    | .ok a => P a r'.position
    | .error e => E e

/-- The first token that ends the script. -/
structure Script.StopsAt (d : Script) (stop : ℕ) : Prop where
  exists_end : ∃ t, d.tokens[stop]? = some t ∧ t.kind = .eof
  first : ∀ i < stop, ∀ t, d.tokens[i]? = some t → t.kind ≠ .eof

namespace Script.StopsAt

variable {d : Script} {stop i : ℕ} {t : Token}

lemma exists_token (h : d.StopsAt stop) (hi : i ≤ stop) : ∃ t, d.tokens[i]? = some t := by
  obtain ⟨t, ht, -⟩ := h.exists_end
  obtain ⟨hlength, -⟩ := List.getElem?_eq_some_iff.mp ht
  exact ⟨d.tokens[i], List.getElem?_eq_getElem (by omega)⟩

lemma lt_of_ne (h : d.StopsAt stop) (hi : i ≤ stop) (ht : d.tokens[i]? = some t)
    (hne : t.kind ≠ .eof) : i < stop := by
  refine Nat.lt_of_le_of_ne hi ?_
  rintro rfl
  obtain ⟨u, hu, heof⟩ := h.exists_end
  obtain rfl : t = u := Option.some.inj (ht.symm.trans hu)
  exact hne heof

lemma eq_of_eof (h : d.StopsAt stop) (hi : i ≤ stop) (ht : d.tokens[i]? = some t)
    (heof : t.kind = .eof) : i = stop := by
  by_contra hne
  exact h.first i (Nat.lt_of_le_of_ne hi hne) t ht heof

end Script.StopsAt

namespace Descent

variable {α β : Type} {m : Descent α} {f : α → Descent β} {r r' : Reader}

lemma run_bind_of_ok {a : α} (h : m.run.run r = some (.ok a, r')) :
    (m >>= f).run.run r = (f a).run.run r' := by
  rw [ExceptT.run_bind, StateT.run_bind, h]
  rfl

lemma run_bind_of_error {e : Failure} (h : m.run.run r = some (.error e, r')) :
    (m >>= f).run.run r = some (.error e, r') := by
  rw [ExceptT.run_bind, StateT.run_bind, h]
  rfl

namespace Ends

variable {stop i j : ℕ} {P P' : α → ℕ → Prop} {Q : β → ℕ → Prop} {E E' : Failure → Prop}

lemma of_pure {a : α} (h : P a i) : Ends stop i (pure a) P E := by
  rintro r rfl hr
  exact ⟨.ok a, r, rfl, Nat.le_refl _, hr, h⟩

lemma of_error {e : Failure} (h : E e) : Ends stop i (ofResult (.error e)) P E := by
  rintro r rfl hr
  exact ⟨.error e, r, rfl, Nat.le_refl _, hr, h⟩

lemma bind (hm : Ends stop i m P E') (hE : ∀ e, E' e → E e)
    (hf : ∀ a j, i ≤ j → j ≤ stop → P a j → Ends stop j (f a) Q E) :
    Ends stop i (m >>= f) Q E := by
  intro r hi hr
  obtain ⟨result, r₁, hrun, hle, hr₁, hP⟩ := hm r hi hr
  cases result with
  | error e => exact ⟨.error e, r₁, run_bind_of_error hrun, hle, hr₁, hE e hP⟩
  | ok a =>
    obtain ⟨result, r₂, hrun₂, hle₂, hr₂, hQ⟩ := hf a _ hle hr₁.1 hP r₁ rfl hr₁
    exact ⟨result, r₂, (run_bind_of_ok hrun).trans hrun₂, Nat.le_trans hle hle₂, hr₂, hQ⟩

lemma imp (hm : Ends stop i m P E) (hP : ∀ a j, i ≤ j → j ≤ stop → P a j → P' a j)
    (hE : ∀ e, E e → E' e) : Ends stop i m P' E' := by
  intro r hi hr
  obtain ⟨result, r', hrun, hle, hr', h⟩ := hm r hi hr
  refine ⟨result, r', hrun, hle, hr', ?_⟩
  cases result with
  | error e => exact hE e h
  | ok a => exact hP a _ hle hr'.1 h

lemma ofResult_bind {f : α → Descent β} {result : Except Failure α}
    (hok : ∀ a, result = .ok a → Ends stop i (f a) Q E) (herror : ∀ e, result = .error e → E e) :
    Ends stop i (ofResult result >>= f) Q E := by
  cases result with
  | error e => exact of_error (herror e rfl)
  | ok a => exact hok a rfl

/-! ### Looks and moves -/

variable {d : Script} {t : Token} {kind : TokenKind}

lemma look {k : ℕ} (ht : d.tokens[i + k]? = some t) (hk : i + k ≤ stop) :
    Ends stop i (d.look k) (fun u j => u = t ∧ j = i) E := by
  rintro r rfl hr
  have hrun : (d.look k).run.run r = some (.ok t, ⟨r.position, (r.position + k) :: r.looks⟩) := by
    refine (run_bind_of_ok rfl).trans ((run_bind_of_ok rfl).trans ?_)
    rw [ht]
    rfl
  exact ⟨.ok t, _, hrun, Nat.le_refl _, ⟨hr.1, List.forall_mem_cons.mpr ⟨hk, hr.2⟩⟩, rfl, rfl⟩

lemma look_bind {f : Token → Descent β} {k : ℕ} (ht : d.tokens[i + k]? = some t)
    (hk : i + k ≤ stop) (hf : Ends stop i (f t) Q E) : Ends stop i (d.look k >>= f) Q E := by
  refine (look ht hk).bind (fun _ => id) fun u j _ _ hu => ?_
  obtain ⟨rfl, rfl⟩ := hu
  exact hf

lemma advance (hstop : d.StopsAt stop) (hi : i ≤ stop) (ht : d.tokens[i]? = some t) :
    Ends stop i d.advance (fun _ j => j = if t.kind ≠ .eof then i + 1 else i) E := by
  refine look_bind ht hi ?_
  split_ifs with hne
  · rintro r rfl hr
    have hlt := hstop.lt_of_ne hi ht hne
    exact ⟨.ok (), { r with position := r.position + 1 }, rfl, Nat.le_succ _, ⟨hlt, hr.2⟩, rfl⟩
  · exact of_pure rfl

lemma advance_bind {f : Unit → Descent β} (hstop : d.StopsAt stop) (hi : i ≤ stop)
    (ht : d.tokens[i]? = some t) (hne : t.kind ≠ .eof)
    (hf : i + 1 ≤ stop → Ends stop (i + 1) (f ()) Q E) : Ends stop i (d.advance >>= f) Q E := by
  refine (advance hstop hi ht).bind (fun _ => id) fun _ j _ hj hmove => ?_
  rw [if_pos hne] at hmove
  subst hmove
  exact hf hj

/-- A token of another kind is not accepted. One that is accepted is left behind, if it does not end
the script. -/
lemma accept_bind {f : Bool → Descent β} (hstop : d.StopsAt stop) (hi : i ≤ stop)
    (ht : d.tokens[i]? = some t)
    (hyes : t.kind = kind → ∀ j, i ≤ j → j ≤ stop → (kind ≠ .eof → j = i + 1) →
      Ends stop j (f true) Q E)
    (hno : t.kind ≠ kind → Ends stop i (f false) Q E) :
    Ends stop i (d.accept kind >>= f) Q E := by
  rw [Script.accept, bind_assoc]
  refine look_bind ht hi ?_
  split_ifs with hkind
  · rw [bind_assoc]
    refine (advance hstop hi ht).bind (fun _ => id) fun _ j hle hj hmove => ?_
    rw [pure_bind]
    refine hyes hkind j hle hj fun hne => ?_
    rwa [hkind, if_pos hne] at hmove
  · rw [pure_bind]
    exact hno hkind

lemma isLabel_bind {f : Bool → Descent β} (hstop : d.StopsAt stop) (hi : i ≤ stop)
    (ht : d.tokens[i]? = some t)
    (hyes : canLabel t.kind = true → ∀ u, d.tokens[i + 1]? = some u → u.kind = .colon →
      Ends stop i (f true) Q E)
    (hno : (∀ u, d.tokens[i + 1]? = some u → ¬(canLabel t.kind = true ∧ u.kind = .colon)) →
      Ends stop i (f false) Q E) :
    Ends stop i (d.isLabel >>= f) Q E := by
  rw [Script.isLabel, bind_assoc]
  refine look_bind ht hi ?_
  split_ifs with hcan
  · -- the token does not end the script, so that there is one behind it
    have hne : t.kind ≠ .eof := by
      intro heof
      simp [heof, canLabel] at hcan
    have hlt := hstop.lt_of_ne hi ht hne
    obtain ⟨u, hu⟩ := hstop.exists_token hlt
    rw [bind_assoc]
    refine look_bind hu hlt ?_
    rw [pure_bind]
    by_cases hcolon : u.kind = .colon
    · rw [decide_eq_true hcolon]
      exact hyes hcan u hu hcolon
    · rw [decide_eq_false hcolon]
      refine hno fun v hv h => ?_
      obtain rfl : u = v := Option.some.inj (hu.symm.trans hv)
      exact hcolon h.2
  · rw [pure_bind]
    exact hno fun u _ h => hcan h.1

/-! ### Loops -/

/-- A loop ends if each of its turns moves on or leaves it. What holds where a turn begins, and
again where the next one begins, holds where the last one does. -/
lemma loop {loop : List Tree → Descent (List Tree)} {turn : List Tree → Descent Turn}
    {I : ℕ → List Tree → Prop} {P : List Tree → ℕ → Prop} {ts : List Tree}
    (hloop : ∀ ts, loop ts = turn ts >>= fun next =>
      match next with
      | .again us => loop us
      | .leave us => pure us)
    (hturn : ∀ k, i ≤ k → k ≤ stop → ∀ ts, I k ts → Ends stop k (turn ts)
      (fun next j =>
        match next with
        | .again us => k < j ∧ I j us
        | .leave us => P us j) E)
    (hi : i ≤ stop) (h : I i ts) : Ends stop i (loop ts) P E := by
  have hrest : ∀ left k, stop - k = left → i ≤ k → k ≤ stop → ∀ ts, I k ts →
      Ends stop k (loop ts) P E := by
    intro left
    induction left using Nat.strongRecOn with
    | ind left ih =>
      intro k hleft hik hk ts hts
      rw [hloop]
      refine (hturn k hik hk ts hts).bind (fun _ => id) fun next j hle hj hnext => ?_
      cases next with
      | again us =>
        obtain ⟨hlt, hus⟩ := hnext
        exact ih (stop - j) (by omega) j rfl (by omega) hj us hus
      | leave us => exact .of_pure hnext
  exact hrest _ i rfl (Nat.le_refl i) hi ts h

end Ends

end Descent

end Grouping.InPlace

end LineScript
