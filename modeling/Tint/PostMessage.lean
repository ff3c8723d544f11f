import Tint.ScriptSyntax

/-!
# `postMessage` of WebView

The message becomes a single-quoted literal of a script: backslashes, quotes and line feeds are
escaped, in this order, and nothing else is.

* `scan_escaped` -- what a scan makes of an escaped message inside a literal;
* `parses_iff` -- the script is the intended one, with the message as the value of its literal,
  exactly when the message has no other line terminator that a literal must not contain.

The script is a text here; on macOS `$()` makes an `NSString` of the same characters of it.
-/

namespace PostMessage

open ScriptSyntax

/-- Where the text is posted. -/
inductive Platform
  | mac
  | win
  deriving DecidableEq

/-- The three replacements. -/
def escaped (e : Text) : Text :=
  replace lineFeed [backslash, 0x6E]
    (replace quote [backslash, quote] (replace backslash [backslash, backslash] e))

/-- The text of the script behind the message: the other arguments on Windows. -/
def suffix : Platform → Text
  | .mac => units "');\n"
  | .win => units "','*',0,window);\n"

/-- `postMessage`: the script. -/
def postMessage (platform : Platform) (e : Text) : Text :=
  units "var msg=document.createEvent('MessageEvent');\n" ++
    (units "msg.initMessageEvent('message',true,true,'" ++ escaped e ++ suffix platform) ++
    units "window.dispatchEvent(msg);\n"

/-- The statements that are meant. -/
def intended (platform : Platform) (e : Text) : List Statement :=
  let word := fun name => Expression.word (units name)
  let method := fun object name => Expression.member (word object) (units name)
  [.declaration (units "msg")
      (.call (method "document" "createEvent") [.string (units "MessageEvent")]),
    .expression (.call (method "msg" "initMessageEvent")
      ([.string (units "message"), word "true", word "true", .string e] ++
        match platform with
        | .mac => []
        | .win => [.string (units "*"), word "0", word "window"])),
    .expression (.call (method "window" "dispatchEvent") [word "msg"])]

/-- **Right.**  The script is what is meant, and the value of its literal is the message. -/
def Parses (edition : Edition) (platform : Platform) (e : Text) : Prop :=
  program edition (postMessage platform e) = some (intended platform e)

/-- **The condition.**  There is no carriage return in the message, and before 2019 no separator. -/
def Allowed (edition : Edition) (e : Text) : Prop :=
  ∀ u ∈ e, u ≠ carriageReturn ∧
    (edition = .es5 → u ≠ lineSeparator ∧ u ≠ paragraphSeparator)

/-! ## Escaping, one unit at a time -/

/-- What one unit becomes. -/
def escapedUnit (u : UInt16) : Text :=
  if u = backslash then [backslash, backslash]
  else if u = quote then [backslash, quote]
  else if u = lineFeed then [backslash, 0x6E]
  else [u]

/-- A text is escaped unit by unit. -/
theorem escaped_cons (u : UInt16) (e : Text) : escaped (u :: e) = escapedUnit u ++ escaped e := by
  simp only [escaped, replace, List.flatMap_cons, List.flatMap_append]
  congr 1
  rw [escapedUnit]
  by_cases hbackslash : u = backslash
  · rw [hbackslash]
    decide
  · rw [if_neg hbackslash, if_neg hbackslash, List.flatMap_singleton]
    by_cases hquote : u = quote
    · rw [hquote]
      decide
    · rw [if_neg hquote, if_neg hquote, List.flatMap_singleton]

/-- A backslash and the unit `v`, where the escape is of `u`. -/
theorem scan_escape (edition : Edition) (value : Text) {u v : UInt16}
    (h : literalUnit edition quote .begun v = some ([u], some .no)) :
    scan edition (.string quote value .no) [backslash, v] =
      some ([], .string quote (value ++ [u]) .no) := by
  have hbackslash : literalUnit edition quote .no backslash = some ([], some .begun) := by
    cases edition <;> rfl
  simp only [scan, turn, hbackslash, h, Option.map_some, Option.bind_some, List.append_nil]

/-- An escaped unit adds the unit itself to the value, unless it ends the line. -/
theorem scan_escapedUnit (edition : Edition) (value : Text) (u : UInt16) :
    scan edition (.string quote value .no) (escapedUnit u) =
      if u ≠ lineFeed ∧ endsLine edition u = true then none
      else some ([], .string quote (value ++ [u]) .no) := by
  rw [escapedUnit]
  by_cases hbackslash : u = backslash
  · have hends : endsLine edition backslash = false := by cases edition <;> rfl
    rw [if_pos hbackslash, hbackslash, hends, if_neg fun h => Bool.false_ne_true h.2]
    apply scan_escape
    rfl
  · rw [if_neg hbackslash]
    by_cases hquote : u = quote
    · have hends : endsLine edition quote = false := by cases edition <;> rfl
      rw [if_pos hquote, hquote, hends, if_neg fun h => Bool.false_ne_true h.2]
      apply scan_escape
      rfl
    · rw [if_neg hquote]
      by_cases hfeed : u = lineFeed
      · rw [if_pos hfeed, hfeed, if_neg fun h => h.1 rfl]
        apply scan_escape
        rfl
      · rw [if_neg hfeed]
        -- the unit stands as it is
        by_cases hends : endsLine edition u = true
        · rw [if_pos ⟨hfeed, hends⟩]
          simp only [scan, turn, literalUnit, plainUnit, if_neg hquote, if_neg hbackslash,
            if_pos hends, Option.map_none, Option.bind_none]
        · rw [if_neg fun h => hends h.2]
          simp only [scan, turn, literalUnit, plainUnit, if_neg hquote, if_neg hbackslash,
            if_neg hends, Option.map_some, Option.bind_some, List.append_nil]

/-- A unit is allowed if it is a line feed or does not end a line. -/
theorem allowedUnit_iff (edition : Edition) (u : UInt16) :
    (u ≠ carriageReturn ∧ (edition = .es5 → u ≠ lineSeparator ∧ u ≠ paragraphSeparator)) ↔
      ¬ (u ≠ lineFeed ∧ endsLine edition u = true) := by
  simp only [endsLine, Bool.or_eq_true, Bool.and_eq_true, beq_iff_eq]
  constructor
  · intro hallowed hends
    obtain ⟨hfeed, (hfeed' | hreturn) | ⟨hedition, hseparator⟩⟩ := hends
    · exact hfeed hfeed'
    · exact hallowed.1 hreturn
    · exact hseparator.elim (hallowed.2 hedition).1 (hallowed.2 hedition).2
  · intro hends
    refine ⟨fun hreturn => hends ?_, fun hedition => ⟨fun hseparator => hends ?_,
      fun hseparator => hends ?_⟩⟩
    · exact ⟨by rw [hreturn]; decide, .inl (.inr hreturn)⟩
    · exact ⟨by rw [hseparator]; decide, .inr ⟨hedition, .inl hseparator⟩⟩
    · exact ⟨by rw [hseparator]; decide, .inr ⟨hedition, .inr hseparator⟩⟩

theorem allowed_cons (edition : Edition) (u : UInt16) (e : Text) :
    Allowed edition (u :: e) ↔
      ¬ (u ≠ lineFeed ∧ endsLine edition u = true) ∧ Allowed edition e := by
  rw [← allowedUnit_iff]
  exact List.forall_mem_cons

/-- An escaped message that is allowed becomes the value of the literal. -/
theorem scan_escaped {edition : Edition} {e : Text} (h : Allowed edition e) (value : Text) :
    scan edition (.string quote value .no) (escaped e) =
      some ([], .string quote (value ++ e) .no) := by
  induction e generalizing value with
  | nil =>
      rw [List.append_nil]
      rfl
  | cons u e ih =>
      obtain ⟨hunit, hrest⟩ := (allowed_cons edition u e).mp h
      rw [escaped_cons, scan_append, scan_escapedUnit, if_neg hunit, Option.bind_some, ih hrest,
        Option.map_some, List.append_assoc]
      rfl

/-- Any other message ends the line within the literal. -/
theorem scan_escaped_none {edition : Edition} {e : Text} (h : ¬ Allowed edition e)
    (value : Text) : scan edition (.string quote value .no) (escaped e) = none := by
  induction e generalizing value with
  | nil => exact absurd (fun u hu => absurd hu List.not_mem_nil) h
  | cons u e ih =>
      rw [escaped_cons, scan_append, scan_escapedUnit]
      by_cases hunit : u ≠ lineFeed ∧ endsLine edition u = true
      · rw [if_pos hunit, Option.bind_none]
      · have hrest : ¬ Allowed edition e := fun hrest =>
          h ((allowed_cons edition u e).mpr ⟨hunit, hrest⟩)
        rw [if_neg hunit, Option.bind_some, ih hrest, Option.map_none]

/-! ## The script -/

/-- The text before the message, and its tokens. -/
def head : Text :=
  units "var msg=document.createEvent('MessageEvent');\n" ++
    units "msg.initMessageEvent('message',true,true,'"

/-- The tokens before the text. -/
def headTokens : List Token :=
  [.word (units "var"), .word (units "msg"), .punctuator equals, .word (units "document"),
    .punctuator dot, .word (units "createEvent"), .punctuator openParen,
    .string (units "MessageEvent"), .punctuator closeParen, .punctuator semicolon,
    .word (units "msg"), .punctuator dot, .word (units "initMessageEvent"),
    .punctuator openParen, .string (units "message"), .punctuator comma, .word (units "true"),
    .punctuator comma, .word (units "true"), .punctuator comma]

theorem scan_head (edition : Edition) :
    scan edition .between head = some (headTokens, .string quote [] .no) := by
  cases edition <;> decide

/-- The tokens behind the literal of the message. -/
def tailTokens (platform : Platform) : List Token :=
  (match platform with
    | .mac => []
    | .win => [.punctuator comma, .string (units "*"), .punctuator comma, .word (units "0"),
        .punctuator comma, .word (units "window")]) ++
    [.punctuator closeParen, .punctuator semicolon, .word (units "window"), .punctuator dot,
      .word (units "dispatchEvent"), .punctuator openParen, .word (units "msg"),
      .punctuator closeParen, .punctuator semicolon]

/-- Behind the text the scan comes to its end. -/
theorem scan_tail (edition : Edition) (platform : Platform) (value : Text) :
    scan edition (.string quote value .no)
        (suffix platform ++ units "window.dispatchEvent(msg);\n") =
      some (.string value :: tailTokens platform, .between) := by
  have hquote :
      turn edition (.string quote value .no) quote = some ([.string value], .between) := by
    simp only [turn, literalUnit, plainUnit, if_true, Option.map_some, List.append_nil]
  have hrest : scan edition .between
      ((suffix platform ++ units "window.dispatchEvent(msg);\n").tail) =
        some (tailTokens platform, .between) := by
    cases edition <;> cases platform <;> decide
  have hcons : suffix platform ++ units "window.dispatchEvent(msg);\n" =
      quote :: (suffix platform ++ units "window.dispatchEvent(msg);\n").tail := by
    cases platform <;> rfl
  rw [hcons, scan, hquote, Option.bind_some, hrest, Option.map_some]
  rfl

theorem postMessage_eq (platform : Platform) (e : Text) :
    postMessage platform e =
      head ++ (escaped e ++ (suffix platform ++ units "window.dispatchEvent(msg);\n")) := by
  simp only [postMessage, head, List.append_assoc]

/-- The script has the text for a token if it is allowed. -/
theorem tokens_postMessage {edition : Edition} {e : Text} (h : Allowed edition e)
    (platform : Platform) :
    tokens edition (postMessage platform e) =
      some (headTokens ++ .string e :: tailTokens platform) := by
  rw [tokens, postMessage_eq, scan_append, scan_head, Option.bind_some, scan_append,
    scan_escaped h, Option.bind_some, scan_tail]
  rfl

theorem tokens_postMessage_none {edition : Edition} {e : Text} (h : ¬ Allowed edition e)
    (platform : Platform) : tokens edition (postMessage platform e) = none := by
  rw [tokens, postMessage_eq, scan_append, scan_head, Option.bind_some, scan_append,
    scan_escaped_none h]
  rfl

/-- The statements of the tokens. -/
theorem statements_postMessage (platform : Platform) (e : Text) :
    let ts := headTokens ++ .string e :: tailTokens platform
    statements (2 * ts.length + 2) ts = some (intended platform e) := by
  cases platform <;> rfl

/-- **Parses.**  The script is the intended one, with the message as the value of its literal,
exactly when the message has no carriage return and, before 2019, no separator. -/
theorem parses_iff (edition : Edition) (platform : Platform) (e : Text) :
    Parses edition platform e ↔ Allowed edition e := by
  rw [Parses, program]
  by_cases h : Allowed edition e
  · rw [tokens_postMessage h, Option.bind_some, statements_postMessage]
    exact iff_of_true rfl h
  · rw [tokens_postMessage_none h, Option.bind_none]
    exact iff_of_false (Option.some_ne_none _).symm h

/-- A carriage return leaves the literal open at the end of its line. -/
theorem carriageReturn_breaks :
    ¬ ∀ (edition : Edition) (platform : Platform) (e : Text), Parses edition platform e := by
  intro h
  have hparses := h .es2019 .mac [carriageReturn]
  have htokens : tokens .es2019 (postMessage .mac [carriageReturn]) = none := by decide
  rw [Parses, program, htokens] at hparses
  exact Option.some_ne_none _ hparses.symm

end PostMessage
