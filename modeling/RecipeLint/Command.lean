import RecipeLint.Word

/-!
# Simple commands

Between two control operators stands a simple command: assignments, the name of the command, its
arguments, and redirections anywhere among them.
-/

namespace RecipeLint

structure Assignment where
  name : Text
  /-- Nothing for `NAME=`. -/
  value? : Option Word
  span : Span

/-- Reads a word as an assignment. Its first atom must hold the name and the equals sign, outside of
quotes. -/
def Assignment.ofWord? (w : Word) : Option Assignment :=
  match w.atoms with
  | [] => none
  | first :: others =>
    if first.kind.isText && first.quoting == .plain then
      match first.text.span (· != '=') with
      | (name, _ :: rest) =>
        if isIdentifier name then
          let start := first.span.start + Text.byteSize name + 1
          let front : List Atom :=
            if rest.isEmpty then [] else [⟨.text, rest, ⟨start, first.span.stop⟩, first.quoting⟩]
          let after := ((first :: others).getLast?.map Atom.quotingBehind).getD .plain
          some ⟨name, Word.ofAtoms? (front ++ others) after, w.span⟩
        else none
      | _ => none
    else none

structure Redirect where
  descriptor? : Option Nat
  kind : Redirection
  /-- Nothing if no word follows the operator. -/
  target? : Option Word
  span : Span

structure Command where
  assignments : List Assignment
  name? : Option Word
  args : List Word
  redirects : List Redirect
  span : Span

namespace Command

/-- A command of which a part was read. -/
structure Draft where
  assignments : List Assignment := []
  name? : Option Word := none
  args : List Word := []
  redirects : List Redirect := []
  /-- The redirection whose target is read next. -/
  awaiting? : Option Redirect := none
  span? : Option Span := none

namespace Draft

def cover (d : Draft) (s : Span) : Draft :=
  { d with span? := some (d.span?.elim s (·.merge s)) }

/-- The draft with a redirection that still awaited its target. -/
def settle (d : Draft) : Draft :=
  { d with redirects := d.redirects ++ d.awaiting?.toList, awaiting? := none }

/-- Adds a word: the target of a redirection, an assignment, the name, or an argument. -/
def word (d : Draft) (w : Word) : Draft :=
  let d := d.cover w.span
  match d.awaiting? with
  | some r =>
    let r := { r with target? := some w, span := r.span.merge w.span }
    { d with redirects := d.redirects ++ [r], awaiting? := none }
  | none =>
    match d.name?, Assignment.ofWord? w with
    | some _, _ => { d with args := d.args ++ [w] }
    | none, some a => { d with assignments := d.assignments ++ [a] }
    | none, none => { d with name? := some w }

def redirect (d : Draft) (r : Redirect) : Draft :=
  { (d.cover r.span).settle with awaiting? := some r }

def close? (d : Draft) : Option Command :=
  let d := d.settle
  d.span?.map fun span => ⟨d.assignments, d.name?, d.args, d.redirects, span⟩

end Draft

/-- The commands of some tokens, the first of which goes on with a draft. -/
def ofTokensAfter (d : Draft) : List Token → List Command
  | [] => d.close?.toList
  | .word w :: tokens => ofTokensAfter (d.word w) tokens
  | .operator (.redirect descriptor? kind) span :: tokens =>
    ofTokensAfter (d.redirect ⟨descriptor?, kind, none, span⟩) tokens
  | .operator (.control _) _ :: tokens => d.close?.toList ++ ofTokensAfter {} tokens
  | .comment .. :: tokens => ofTokensAfter d tokens

/-- The commands of some tokens. Between control operators without a word or a redirection there is
none. -/
def ofTokens (tokens : List Token) : List Command :=
  ofTokensAfter {} tokens

end Command

end RecipeLint
