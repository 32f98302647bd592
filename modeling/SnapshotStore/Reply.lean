import SnapshotStore.Fault

/-! # Replies

A reply travels as plain text: the value that was read, `OK`, `NIL`, or `ERROR(` a reason `)`.
`Reply.render` prints a reply and `Reply.parse` reads one. -/

namespace SnapshotStore

/-- What a client is told. -/
inductive Reply where
  | value (text : String)
  | ok
  | nil
  | error (reason : String)
deriving DecidableEq, Repr

namespace Reply

/-- The reply for a fault. -/
def ofFault (f : Fault) : Reply := error f.message

/-- The reply for the result of a read. -/
def ofValue? : Option String → Reply
  | some text => value text
  | none => nil

/-- The reason inside `ERROR(` and `)`, if a text has this form. -/
def reason? (text : List Char) : Option (List Char) :=
  ("ERROR(".toList.isPrefixOf? text).bind (")".toList.isSuffixOf? ·)

/-- The reply that a text stands for. -/
def parse (text : String) : Reply :=
  if text = "OK" then ok
  else if text = "NIL" then nil
  else match reason? text.toList with
    | some reason => error (String.ofList reason)
    | none => value text

/-- The text of a reply. -/
def render : Reply → String
  | value text => text
  | ok => "OK"
  | nil => "NIL"
  | error reason => "ERROR(" ++ reason ++ ")"

/-- Whether a reply reports a failure. -/
def isError : Reply → Bool
  | error _ => true
  | _ => false

end Reply
end SnapshotStore
