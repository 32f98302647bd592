import SnapshotStore.Fault
import SnapshotStore.Text.Blank

/-! # Commands

A client sends one line of text: a keyword and its arguments, separated by blanks.  Keywords may
be written in any ASCII case.

* `Command.parse` reads a line; `Command.render` prints a command in its canonical form.
* `Keyword.arity` says how many arguments a keyword takes. -/

namespace SnapshotStore

/-- The first word of a command. -/
inductive Keyword where
  | get
  | set
  | del
  | begin
  | commit
  | rollback
deriving DecidableEq, Repr

namespace Keyword

/-- All keywords. -/
def all : List Keyword := [get, set, del, begin, commit, rollback]

/-- A keyword as it is printed. -/
def text : Keyword → String
  | get => "GET"
  | set => "SET"
  | del => "DEL"
  | begin => "BEGIN"
  | commit => "COMMIT"
  | rollback => "ROLLBACK"

/-- The keyword that a word spells, in any ASCII case. -/
def ofWord? (word : List Char) : Option Keyword :=
  all.find? fun k => k.text.toList = word.map Char.toUpper

/-- The number of arguments that follow a keyword. -/
def arity : Keyword → Nat
  | set => 2
  | get | del => 1
  | begin | commit | rollback => 0

/-- Whether a command with this keyword changes data. -/
def isWrite : Keyword → Bool
  | set | del => true
  | _ => false

end Keyword

/-- A request of a client. -/
inductive Command where
  | get (key : String)
  | set (key value : String)
  | del (key : String)
  | begin
  | commit
  | rollback
deriving DecidableEq, Repr

namespace Command

/-- The keyword of a command. -/
def keyword : Command → Keyword
  | get _ => .get
  | set _ _ => .set
  | del _ => .del
  | begin => .begin
  | commit => .commit
  | rollback => .rollback

/-- The arguments of a command, in order. -/
def args : Command → List String
  | get key => [key]
  | set key value => [key, value]
  | del key => [key]
  | begin | commit | rollback => []

/-- The command with a keyword and arguments, if their number is right. -/
def ofArgs? : Keyword → List String → Option Command
  | .get, [key] => some (get key)
  | .set, [key, value] => some (set key value)
  | .del, [key] => some (del key)
  | .begin, [] => some begin
  | .commit, [] => some commit
  | .rollback, [] => some rollback
  | _, _ => none

/-- Reads one line of input. -/
def parse (line : String) : Outcome Command :=
  match Text.words line.toList with
  | [] => .error (.invalidCommand "empty command")
  | word :: args =>
    match Keyword.ofWord? word with
    | none => .error (.invalidCommand "bad command type")
    | some keyword =>
      match ofArgs? keyword (args.map String.ofList) with
      | none => .error (.invalidCommand "bad amount of args")
      | some command => .ok command

/-- The canonical line of a command. -/
def render (c : Command) : String := " ".intercalate (c.keyword.text :: c.args)

theorem ofArgs?_keyword_args (c : Command) : ofArgs? c.keyword c.args = some c := by
  cases c <;> rfl

theorem ofArgs?_eq_some_iff {k : Keyword} {args : List String} {c : Command} :
    ofArgs? k args = some c ↔ k = c.keyword ∧ args = c.args := by
  constructor
  · intro h
    unfold ofArgs? at h
    split at h <;> first | (obtain rfl := Option.some.inj h; exact ⟨rfl, rfl⟩) | simp at h
  · rintro ⟨rfl, rfl⟩
    exact ofArgs?_keyword_args c

end Command
end SnapshotStore
