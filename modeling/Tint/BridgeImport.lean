import Mathlib.Data.List.Basic
import Mathlib.Data.List.Infix
import Mathlib.Data.List.Nodup

/-!
# Scanning BridgeSupport files

A framework is described by an XML file of elements with single-quoted
attributes.  `findTags` reads it without an XML parser: it looks for a `<`,
compares the characters after it with the recognised names, and when one of
them matches, `parseTag` cuts the attributes at the next `>` and the body at
the next `</name`; the search goes on `last.end` characters further, where
`last.end` belongs to the element found last.

* `scanned` -- on a document the scanner can keep in step with, `findTags`
  returns the recognised elements with their attributes and their children;
* `findTags_total` -- on every content the loop comes to an end;
* `scan_skips_element` -- an element is lost after an unrecognised one: the
  search goes on as many characters further as the element before was long.
-/

namespace BridgeImport

/-- The characters of a string. -/
abbrev Text := List Char

/-- White space. -/
def isSpace (c : Char) : Bool := [' ', '\t', '\n', '\r'].contains c

/-- The characters of a name are all but the delimiters of the format. -/
def isNameChar (c : Char) : Bool :=
  !isSpace c && !(['<', '>', '/', '=', '\'', '"', '&'].contains c)

/-- The name of an element or an attribute. -/
structure Name where
  text : Text
  nonempty : text ≠ []
  chars : ∀ c ∈ text, isNameChar c = true
  deriving DecidableEq

/-- A name is its characters. -/
theorem Name.ext {m n : Name} (h : m.text = n.text) : m = n := by
  cases m
  cases n
  simpa using h

/-- The object of recognised names: its keys in order, and for each key the
object that is used inside the element, or `null`. -/
inductive Names
  | null
  | table (keys : List Name) (inner : Name → Names)

/-- An element that was found. -/
inductive Tag
  | mk (name : Text) (attrib : List (Text × Text)) (children : List Tag)

/-! ## The string functions -/

/-- `s[i]` -/
def charAt (s : Text) (i : Int) : Option Char :=
  if i < 0 then none else s[i.toNat]?

/-- `s.substring(a, b)`: the ends are moved into the string and put in order. -/
def substring (s : Text) (a b : Int) : Text :=
  (s.take (max a.toNat b.toNat)).drop (min a.toNat b.toNat)

/-- The loop of `fastIndexOf`, from index `i` with the characters from there. -/
def fastIndexOfFrom (target : Char) : Text → Nat → Int
  | [], _ => -1
  | c :: rest, i => if c = target then i else fastIndexOfFrom target rest (i + 1)

/-- `fastIndexOf(subject, target, fromIndex)` -/
def fastIndexOf (subject : Text) (target : Char) (fromIndex : Int) : Int :=
  let i := if fromIndex < 0 then (fromIndex + subject.length).toNat else fromIndex.toNat
  fastIndexOfFrom target (subject.drop i) i

/-- The search of `indexOf`, from index `i` with the characters from there. -/
def indexOfFrom (pattern : Text) : Text → Nat → Int
  | [], i => if pattern = [] then i else -1
  | c :: rest, i => if pattern <+: c :: rest then i else indexOfFrom pattern rest (i + 1)

/-- `s.indexOf(pattern, fromIndex)` -/
def indexOf (s pattern : Text) (fromIndex : Int) : Int :=
  let i := min fromIndex.toNat s.length
  indexOfFrom pattern (s.drop i) i

/-- `attr.split('\' ')` -/
def split : Text → List Text
  | [] => [[]]
  | [c] => [[c]]
  | c :: d :: rest =>
    if c = '\'' ∧ d = ' ' then [] :: split rest
    else (split (d :: rest)).modifyHead (c :: ·)

/-- `value.replace(quoteRegExp, '"')` -/
def replaceQuot : Text → Text
  | '&' :: 'q' :: 'u' :: 'o' :: 't' :: ';' :: rest => '"' :: replaceQuot rest
  | c :: rest => c :: replaceQuot rest
  | [] => []

/-! ## The scanner -/

/-- Assigning a string to this property of an object does nothing. -/
def protoKey : Text := ['_', '_', 'p', 'r', 'o', 't', 'o', '_', '_']

/-- `coll[name] = value` -/
def assign (coll : List (Text × Text)) (name value : Text) : List (Text × Text) :=
  if name = protoKey then coll
  else if name ∈ coll.map Prod.fst then
    coll.map fun entry => if entry.1 = name then (name, value) else entry
  else coll ++ [(name, value)]

/-- One turn of the loop of `parseAttrib`. -/
def parsePart (coll : List (Text × Text)) (part : Text) (last : Bool) : List (Text × Text) :=
  let split := fastIndexOf part '=' 0
  let name := substring part 0 split
  let value := substring part (split + 2) (if last then part.length - 1 else part.length)
  let value := if fastIndexOf value '&' 0 ≠ -1 then replaceQuot value else value
  assign coll name value

/-- The loop of `parseAttrib`. -/
def parseParts (coll : List (Text × Text)) : List Text → List (Text × Text)
  | [] => coll
  | part :: rest => parseParts (parsePart coll part rest.isEmpty) rest

/-- `parseAttrib` -/
def parseAttrib (attr : Text) : List (Text × Text) := parseParts [] (split attr)

/-- `names[name] === null` -/
def Names.isNull : Names → Bool
  | .null => true
  | .table _ _ => false

/-- `parseTag`: the tag and its `end`.  `find name` is `findTags` with
`names[name]`. -/
def parseTag (inner : Name → Names) (find : Name → Text → Option (List Tag))
    (name : Name) (content : Text) : Option (Tag × Int) :=
  let sattr : Int := 2 + name.text.length
  let eattr := fastIndexOf content '>' 1
  let isBodyless := charAt content (eattr - 1) = some '/'
  let sbody := eattr + 1
  let ebody := if isBodyless then eattr - 1 else indexOf content ('<' :: '/' :: name.text) eattr
  let tagEnd := if isBodyless then ebody + 2 else ebody + name.text.length + 3
  let attrib := parseAttrib (substring content sattr (eattr + if isBodyless then -1 else 0))
  if sbody = ebody ∨ (inner name).isNull then some (.mk name.text attrib [], tagEnd)
  else (find name (substring content sbody ebody)).map fun children =>
    (.mk name.text attrib children, tagEnd)

/-- The comparison of the content with a key. -/
def matchesKey (content : Text) (key : Name) : Bool :=
  charAt content 1 = charAt key.text 0 &&
    charAt content 2 = charAt key.text 1 &&
    charAt content 3 = charAt key.text 2 &&
    (key.text.length < 4 || key.text = substring content 1 (key.text.length + 1))

/-- The loop over the keys: the list of tags and the `end` of its last tag. -/
def visit (keys : List Name) (parse : Name → Text → Option (Tag × Int))
    (ftags : List Tag) (last : Int) (content : Text) : Option (List Tag × Int) :=
  match keys.find? (matchesKey content) with
  | some key => (parse key content).map fun (tag, tagEnd) => (ftags ++ [tag], tagEnd)
  | none => some (ftags, last)

/-- The loop of `findTags`.  It ends within `fuel` turns, or not at all. -/
def scan (keys : List Name) (parse : Name → Text → Option (Tag × Int)) :
    Nat → List Tag → Int → Text → Option (List Tag)
  | 0, _, _, _ => none
  | fuel + 1, ftags, last, content =>
    match visit keys parse ftags last content with
    | none => none
    | some (ftags, last) =>
      let ndx := fastIndexOf content '<' last
      if ndx = -1 then some ftags
      else scan keys parse fuel ftags last (substring content ndx content.length)

/-- `findTags`.  With `null` there are no keys to ask for, and the code throws. -/
def findTags : Names → Text → Option (List Tag)
  | .null, _ => none
  | .table keys inner, content =>
    scan keys (parseTag inner fun name => findTags (inner name)) (content.length + 1) [] 1 content

/-! ## Documents -/

/-- White space between and inside the tags. -/
abbrev Space := { t : Text // ∀ c ∈ t, isSpace c = true }

/-- The entities of XML. -/
inductive Entity
  | quot
  | apos
  | amp
  | lt
  | gt
  deriving DecidableEq

/-- The character an entity stands for. -/
def Entity.char : Entity → Char
  | .quot => '"'
  | .apos => '\''
  | .amp => '&'
  | .lt => '<'
  | .gt => '>'

/-- An entity as it is written. -/
def Entity.text : Entity → Text
  | .quot => ['&', 'q', 'u', 'o', 't', ';']
  | .apos => ['&', 'a', 'p', 'o', 's', ';']
  | .amp => ['&', 'a', 'm', 'p', ';']
  | .lt => ['&', 'l', 't', ';']
  | .gt => ['&', 'g', 't', ';']

/-- A character of an attribute value in single quotes. -/
inductive Piece
  | char (c : Char) (plain : c ≠ '\'' ∧ c ≠ '<' ∧ c ≠ '&')
  | entity (e : Entity)
  deriving DecidableEq

/-- The character that is meant. -/
def Piece.meaning : Piece → Char
  | .char c _ => c
  | .entity e => e.char

/-- The character as it is written. -/
def Piece.text : Piece → Text
  | .char c _ => [c]
  | .entity e => e.text

/-- An attribute, with the white space before it. -/
structure Attribute where
  space : Space
  spaced : space.1 ≠ []
  name : Name
  value : List Piece

/-- The value as it is written. -/
def Attribute.raw (a : Attribute) : Text := a.value.flatMap Piece.text

/-- The value that is meant. -/
def Attribute.meaning (a : Attribute) : Text := a.value.map Piece.meaning

/-- `name='value` -/
def Attribute.assignment (a : Attribute) : Text := a.name.text ++ '=' :: '\'' :: a.raw

/-- An attribute as it is written. -/
def Attribute.text (a : Attribute) : Text := a.space.1 ++ a.assignment ++ ['\'']

/-- What a start tag and a self-closing tag have in common: no attribute is
given twice. -/
structure Head where
  name : Name
  attributes : List Attribute
  distinct : (attributes.map Attribute.name).Nodup
  trail : Space

/-- The characters between `<` and `>` or `/>`. -/
def Head.text (h : Head) : Text := h.name.text ++ h.attributes.flatMap Attribute.text ++ h.trail.1

/-- The attribute map of an element. -/
def Head.attrib (h : Head) : List (Text × Text) :=
  h.attributes.map fun a => (a.name.text, a.meaning)

/-- `<name attributes>` or `<name attributes/>` -/
def Head.tag (h : Head) (bodyless : Bool) : Text :=
  '<' :: h.text ++ if bodyless then ['/', '>'] else ['>']

/-- `</name>` -/
def Name.closeTag (n : Name) : Text := '<' :: '/' :: n.text ++ ['>']

/-- The elements of a document or of a body, one after the other, each with
the white space after it. -/
inductive Forest
  | nil
  /-- `<name attributes/>` -/
  | empty (h : Head) (after : Space) (rest : Forest)
  /-- `<name attributes> .. </name>` -/
  | node (h : Head) (lead : Space) (kids : Forest) (after : Space) (rest : Forest)

/-- The characters of the elements. -/
def Forest.text : Forest → Text
  | .nil => []
  | .empty h after rest => h.tag true ++ after.1 ++ rest.text
  | .node h lead kids after rest =>
    h.tag false ++ lead.1 ++ kids.text ++ h.name.closeTag ++ after.1 ++ rest.text

/-- `Object.keys(names)` -/
def Names.keys : Names → List Name
  | .null => []
  | .table keys _ => keys

/-- `names[name]` -/
def Names.inner : Names → Name → Names
  | .null, _ => .null
  | .table _ inner, name => inner name

/-- The recognised elements of a document, in its order: inside an element
that is not recognised the same names are looked for, inside a recognised one
those of its own table. -/
def elements : Forest → Names → List Tag
  | .nil, _ => []
  | .empty h _ rest, names =>
    (if h.name ∈ names.keys then [.mk h.name.text h.attrib []] else []) ++ elements rest names
  | .node h _ kids _ rest, names =>
    (if h.name ∈ names.keys then
      [.mk h.name.text h.attrib (elements kids (names.inner h.name))]
    else elements kids names) ++ elements rest names

/-! ## Keeping in step

What the loop of `findTags` meets at one level are the tags it should pass and
the elements it should find.  It keeps in step with them as long as every
element starts where a search ends. -/

/-- A piece of the content, with the white space after it. -/
inductive Item
  /-- the start tag of an element that is not recognised -/
  | start (h : Head) (bodyless : Bool) (after : Space)
  /-- its end tag -/
  | close (name : Name) (after : Space)
  /-- a recognised element, with its body unless it closes itself -/
  | element (h : Head) (body : Option (Space × Forest)) (after : Space)

/-- The characters of an item, without the white space after it. -/
def Item.source : Item → Text
  | .start h bodyless _ => h.tag bodyless
  | .close name _ => name.closeTag
  | .element h none _ => h.tag true
  | .element h (some (lead, kids)) _ => h.tag false ++ lead.1 ++ kids.text ++ h.name.closeTag

/-- The white space after an item. -/
def Item.after : Item → Text
  | .start _ _ after => after.1
  | .close _ after => after.1
  | .element _ _ after => after.1

/-- The characters of an item. -/
def Item.text (i : Item) : Text := i.source ++ i.after

/-- The items of a document, for the recognised names `keys`. -/
def Forest.items (keys : List Name) : Forest → List Item
  | .nil => []
  | .empty h after rest =>
    (if h.name ∈ keys then .element h none after else .start h true after) :: rest.items keys
  | .node h lead kids after rest =>
    (if h.name ∈ keys then [.element h (some (lead, kids)) after]
    else .start h false lead :: kids.items keys ++ [.close h.name after]) ++ rest.items keys

/-- The key is taken for the name: it is a prefix of it of at least three
characters. -/
def Name.claims (name key : Name) : Bool := 3 ≤ key.text.length && key.text.isPrefixOf name.text

/-- The code can read the character: `&quot;` is the only entity it knows, and
it takes every `>` for the end of the tag. -/
def Piece.plain : Piece → Bool
  | .char c _ => c ≠ '>'
  | .entity e => e = .quot

/-- The code can read the attribute: a value that starts with a blank is split
off like a next attribute. -/
def Attribute.plain (a : Attribute) : Bool :=
  a.name.text ≠ protoKey && a.raw.head? ≠ some ' ' && a.value.all Piece.plain

/-- The code can read the attributes of the tag: there is at least one, the
first stands one character after the name, the others are each set off by one
blank, and nothing stands between the last one and the end of the tag. -/
def Head.plain (h : Head) : Bool :=
  match h.attributes with
  | [] => false
  | a :: as =>
    a.space.1.length = 1 && as.all (fun b => b.space.1 = [' ']) && h.trail.1.isEmpty &&
      h.attributes.all Attribute.plain

/-- No end tag in a body starts with `</name`. -/
def Forest.closeFree (name : Name) : Forest → Bool
  | .nil => true
  | .empty _ _ rest => rest.closeFree name
  | .node h _ kids _ rest =>
    !name.text.isPrefixOf h.name.text && kids.closeFree name && rest.closeFree name

/-- The loop of `findTags` keeps in step with the items.  `last` is the length
of the element found last, and `gap` how many of the next characters the
search does not look at: after a tag that is passed it skips as many
characters as that element had, and no recognised element may start in them. -/
def inStep (keys : List Name) (body : Name → Forest → Bool) : Nat → Nat → List Item → Bool
  | _, _, [] => true
  | last, gap, .start h bodyless after :: rest =>
    (gap ≠ 0 || (keys.find? h.name.claims).isNone) &&
      inStep keys body last
        ((if gap = 0 then last else gap) - (Item.start h bodyless after).text.length) rest
  | last, gap, .close name after :: rest =>
    inStep keys body last
      ((if gap = 0 then last else gap) - (Item.close name after).text.length) rest
  | _, gap, .element h none after :: rest =>
    gap = 0 && keys.find? h.name.claims = some h.name && h.plain &&
      inStep keys body (Item.element h none after).source.length 0 rest
  | _, gap, .element h (some (lead, kids)) after :: rest =>
    gap = 0 && keys.find? h.name.claims = some h.name && h.plain &&
      kids.closeFree h.name && body h.name kids &&
      inStep keys body (Item.element h (some (lead, kids)) after).source.length 0 rest

/-- The scanner keeps in step with a document, and with the bodies of the
elements it finds. -/
def scannable : Names → Forest → Bool
  | .null, _ => true
  | .table keys inner, f =>
    inStep keys (fun name kids => scannable (inner name) kids) 1 0 (f.items keys)

/-! ## The string functions on what they meet -/

/-- The loop of `fastIndexOf` stops at the first target. -/
theorem fastIndexOfFrom_append {c : Char} {p : Text} (h : c ∉ p) (t : Text) (i : Nat) :
    fastIndexOfFrom c (p ++ c :: t) i = ((i + p.length : Nat) : Int) := by
  induction p generalizing i with
  | nil => simp [fastIndexOfFrom]
  | cons d p ih =>
      have hd : d ≠ c := fun he => h (by simp [he])
      have hp : c ∉ p := fun hm => h (by simp [hm])
      simp only [List.cons_append, fastIndexOfFrom, if_neg hd, ih hp, List.length_cons]
      congr 1
      omega

/-- Without a target it returns `-1`. -/
theorem fastIndexOfFrom_none {c : Char} {s : Text} (h : c ∉ s) (i : Nat) :
    fastIndexOfFrom c s i = -1 := by
  induction s generalizing i with
  | nil => rfl
  | cons d s ih =>
      have hd : d ≠ c := fun he => h (by simp [he])
      have hs : c ∉ s := fun hm => h (by simp [hm])
      simp only [fastIndexOfFrom, if_neg hd, ih hs]

/-- `fastIndexOf` finds a target that is the first one from the index on. -/
theorem fastIndexOf_append {c : Char} {p : Text} {k : Nat} (hk : k ≤ p.length)
    (h : c ∉ p.drop k) (t : Text) : fastIndexOf (p ++ c :: t) c k = (p.length : Int) := by
  have hneg : ¬ (k : Int) < 0 := by omega
  simp only [fastIndexOf, if_neg hneg, Int.toNat_natCast,
    List.drop_append_of_le_length hk, fastIndexOfFrom_append h, List.length_drop]
  congr 1
  omega

/-- `substring` cuts out a middle part. -/
theorem substring_append (p m t : Text) {a b : Int} (ha : a = p.length)
    (hb : b = p.length + m.length) : substring (p ++ m ++ t) a b = m := by
  have ha' : a.toNat = p.length := by omega
  have hb' : b.toNat = p.length + m.length := by omega
  have hlen : p.length + m.length = (p ++ m).length := by simp
  simp only [substring, ha', hb', Nat.max_eq_right (Nat.le_add_right ..),
    Nat.min_eq_left (Nat.le_add_right ..)]
  rw [hlen, List.take_left, List.drop_left]

/-- `substring` puts its ends in order. -/
theorem substring_comm (s : Text) (a b : Int) : substring s a b = substring s b a := by
  simp only [substring, Nat.max_comm, Nat.min_comm]

/-- `substring` to the end of the string. -/
theorem substring_end (s : Text) (k : Nat) : substring s k s.length = s.drop k := by
  simp only [substring, Int.toNat_natCast]
  rcases Nat.le_total k s.length with h | h
  · rw [Nat.max_eq_right h, Nat.min_eq_left h, List.take_length]
  · rw [Nat.max_eq_left h, Nat.min_eq_right h, List.drop_eq_nil_of_le h, List.take_of_length_le h,
      List.drop_length]

/-- The text from the first `<` that is not among the next `k` characters. -/
def seek (k : Nat) (s : Text) : Text := (s.drop k).dropWhile (· ≠ '<')

/-- Text without a `<` is passed over. -/
theorem dropWhile_free {p : Text} (h : '<' ∉ p) (t : Text) :
    (p ++ t).dropWhile (· ≠ '<') = t.dropWhile (· ≠ '<') := by
  induction p with
  | nil => rfl
  | cons d p ih =>
      have hd : d ≠ '<' := fun he => h (by simp [he])
      have hp : '<' ∉ p := fun hm => h (by simp [hm])
      simpa [hd] using ih hp

/-- The search at the end of a turn of the loop, and what it leaves. -/
theorem fastIndexOf_seek (s : Text) (k : Nat) :
    (seek k s = [] ∧ fastIndexOf s '<' k = -1) ∨
      (seek k s ≠ [] ∧ ∃ ndx : Nat, fastIndexOf s '<' k = ndx ∧
        substring s ndx s.length = seek k s) := by
  have hneg : ¬ (k : Int) < 0 := by omega
  by_cases hmem : '<' ∈ s.drop k
  · obtain ⟨p, t, hdrop, hfree⟩ := List.eq_append_cons_of_mem hmem
    have hseek : seek k s = '<' :: t := by
      rw [seek, hdrop, dropWhile_free hfree]
      simp
    refine .inr ⟨by simp [hseek], k + p.length, ?_, ?_⟩
    · simp only [fastIndexOf, if_neg hneg, Int.toNat_natCast, hdrop, fastIndexOfFrom_append hfree]
    · rw [substring_end, ← List.drop_drop, hdrop, List.drop_left, hseek]
  · have hseek : seek k s = [] := by simpa [seek] using dropWhile_free hmem []
    refine .inl ⟨hseek, ?_⟩
    simp only [fastIndexOf, if_neg hneg, Int.toNat_natCast, fastIndexOfFrom_none hmem]

/-- A search past the part without its first character. -/
theorem seek_append {p : Text} (h : '<' ∉ p.tail) {k : Nat} (hk : 0 < k) (t : Text) :
    seek k (p ++ t) = seek (k - p.length) t := by
  have hfree : '<' ∉ p.drop k := fun hm => h (by
    have hdrop : p.drop k = p.tail.drop (k - 1) := by
      rw [← List.drop_one, List.drop_drop]
      congr 1
      omega
    exact List.mem_of_mem_drop (hdrop ▸ hm))
  simp only [seek, List.drop_append, dropWhile_free hfree]

/-- The search of `indexOf` passes text in which the pattern does not start. -/
theorem indexOfFrom_append {pattern p t : Text} (hp : pattern ≠ [])
    (h : ∀ a b, p = a ++ b → b ≠ [] → ¬ pattern <+: b ++ t) (hmatch : pattern <+: t) (i : Nat) :
    indexOfFrom pattern (p ++ t) i = ((i + p.length : Nat) : Int) := by
  induction p generalizing i with
  | nil =>
      rcases t with _ | ⟨c, t⟩
      · exact absurd (List.prefix_nil.mp hmatch) hp
      · simp [indexOfFrom, hmatch]
  | cons d p ih =>
      have hne : ¬ pattern <+: d :: (p ++ t) := h [] (d :: p) rfl (by simp)
      have hrest := ih (fun a b hab hb => h (d :: a) b (by simp [hab]) hb)
      simp only [List.cons_append, indexOfFrom, if_neg hne, hrest, List.length_cons]
      congr 1
      omega

/-! ## The characters of a document -/

/-- A name has no delimiter. -/
theorem Name.not_mem (n : Name) {c : Char} (h : isNameChar c = false) : c ∉ n.text :=
  fun hm => by simp [n.chars c hm] at h

/-- White space has no other character. -/
theorem space_not_mem (w : Space) {c : Char} (h : isSpace c = false) : c ∉ w.1 :=
  fun hm => by simp [w.2 c hm] at h

/-- No value has a `<` or a `'`. -/
theorem Attribute.raw_not_mem (a : Attribute) {c : Char} (h : c = '<' ∨ c = '\'') : c ∉ a.raw := by
  intro hm
  obtain ⟨p, -, hp⟩ := List.mem_flatMap.mp hm
  cases p with
  | char d plain =>
      have : c = d := by simpa [Piece.text] using hp
      rcases h with rfl | rfl <;> simp [← this] at plain
  | entity e => rcases h with rfl | rfl <;> cases e <;> simp [Piece.text, Entity.text] at hp

/-- No value the code can read has a `>`. -/
theorem Attribute.raw_no_gt (a : Attribute) (h : a.plain = true) : '>' ∉ a.raw := by
  intro hm
  obtain ⟨p, hmem, hp⟩ := List.mem_flatMap.mp hm
  have hplain : p.plain = true := by
    simp only [Attribute.plain, Bool.and_eq_true, List.all_eq_true] at h
    exact h.2 p hmem
  cases p with
  | char d plain =>
      have : '>' = d := by simpa [Piece.text] using hp
      simp [Piece.plain, ← this] at hplain
  | entity e => cases e <;> simp [Piece.text, Entity.text] at hp

/-- No attribute has a `<`. -/
theorem Attribute.text_no_lt (a : Attribute) : '<' ∉ a.text := by
  simp [Attribute.text, Attribute.assignment, space_not_mem a.space, a.name.not_mem,
    a.raw_not_mem, isSpace, isNameChar]

/-- Between `<` and `>` there is no other `<`. -/
theorem Head.text_no_lt (h : Head) : '<' ∉ h.text := by
  simp [Head.text, Attribute.text_no_lt, space_not_mem h.trail, h.name.not_mem, isSpace,
    isNameChar]

/-- After its first character a tag has no `<`. -/
theorem Head.tag_no_lt (h : Head) (bodyless : Bool) : '<' ∉ (h.tag bodyless).tail := by
  cases bodyless <;> simp [Head.tag, h.text_no_lt]

/-- After its first character an end tag has no `<`. -/
theorem Name.closeTag_no_lt (n : Name) : '<' ∉ n.closeTag.tail := by
  simp [Name.closeTag, n.not_mem, isNameChar]

/-- The pattern starts nowhere in `p`, when `t` follows. -/
def StartsNowhere (pattern p t : Text) : Prop :=
  ∀ a b, p = a ++ b → b ≠ [] → ¬ pattern <+: b ++ t

/-- One part after the other. -/
theorem StartsNowhere.append {pattern p q t : Text} (hp : StartsNowhere pattern p (q ++ t))
    (hq : StartsNowhere pattern q t) : StartsNowhere pattern (p ++ q) t := by
  intro a b hab hb
  rcases List.append_eq_append_iff.mp hab with ⟨a', rfl, rfl⟩ | ⟨b', rfl, rfl⟩
  · exact hq a' b rfl hb
  · rw [List.append_assoc]
    rcases b' with _ | ⟨c, b'⟩
    · exact hq [] q rfl (by simpa using hb)
    · exact hp a (c :: b') rfl (by simp)

/-- A pattern that starts with `<` does not start in text without one. -/
theorem startsNowhere_free {pattern p : Text} (h : '<' ∉ p) (t : Text) :
    StartsNowhere ('<' :: pattern) p t := by
  rintro a (_ | ⟨c, b⟩) rfl hb hpre
  · exact hb rfl
  · obtain rfl : '<' = c := (List.cons_prefix_cons.mp hpre).1
    exact h (by simp)

/-- It starts in a tag only at its first character. -/
theorem startsNowhere_tag {pattern p t : Text} (h : '<' ∉ p.tail)
    (hpre : ¬ '<' :: pattern <+: p ++ t) : StartsNowhere ('<' :: pattern) p t := by
  rintro (_ | ⟨c, a⟩) b rfl hb
  · exact hpre
  · have hb' : '<' ∉ b := fun hm => h (by simp [hm])
    exact startsNowhere_free hb' t [] b rfl hb

/-- A prefix without a delimiter ends before it. -/
theorem prefix_of_delimiter {k n t : Text} {c : Char} (hc : c ∉ k) :
    k <+: n ++ c :: t ↔ k <+: n := by
  refine ⟨fun h => ?_, fun h => h.trans (List.prefix_append ..)⟩
  rcases List.prefix_or_prefix_of_prefix h (List.prefix_append n (c :: t)) with hk | ⟨s, rfl⟩
  · exact hk
  · rcases s with _ | ⟨d, s⟩
    · simp
    · have : d = c := by
        have := (List.prefix_append_right_inj n).mp h
        exact (List.cons_prefix_cons.mp this).1
      exact absurd (by simp [this]) hc

/-- In a body whose end tags do not start with `</name`, nothing does. -/
theorem Forest.startsNowhere (name : Name) :
    ∀ (f : Forest), f.closeFree name = true → ∀ t,
      StartsNowhere ('<' :: '/' :: name.text) f.text t := by
  have htag : ∀ (h : Head) (b : Bool) (t : Text),
      StartsNowhere ('<' :: '/' :: name.text) (h.tag b) t := by
    intro h b t
    refine startsNowhere_tag (h.tag_no_lt b) ?_
    rcases hn : h.name.text with _ | ⟨c, n⟩
    · exact absurd hn h.name.nonempty
    · have hslash : '/' ∉ h.name.text := h.name.not_mem (by simp [isNameChar, isSpace])
      have hc : '/' ≠ c := fun he => hslash (by rw [hn, he]; simp)
      simp [Head.tag, Head.text, hn, List.cons_prefix_cons, hc]
  have hspace : ∀ (w : Space) (t : Text), StartsNowhere ('<' :: '/' :: name.text) w.1 t :=
    fun w t => startsNowhere_free (space_not_mem w (by simp [isSpace])) t
  intro f
  induction f with
  | nil =>
      rintro - t a b hab hb
      exact absurd (List.append_eq_nil_iff.mp hab.symm).2 hb
  | empty h after rest ih =>
      intro hfree t
      exact ((htag h true _).append (hspace after _)).append (ih hfree t)
  | node h lead kids after rest ihk ihr =>
      intro hfree t
      simp only [Forest.closeFree, Bool.and_eq_true, Bool.not_eq_true'] at hfree
      obtain ⟨⟨hname, hkids⟩, hrest⟩ := hfree
      refine (((((htag h false _).append (hspace lead _)).append (ihk hkids _)).append
        (startsNowhere_tag h.name.closeTag_no_lt ?_)).append (hspace after _)).append (ihr hrest t)
      have hgt : '>' ∉ name.text := name.not_mem (by simp [isNameChar, isSpace])
      intro hpre
      have hpre' : name.text <+: h.name.text ++ '>' :: (after.1 ++ (rest.text ++ t)) := by
        simpa [Name.closeTag, List.cons_prefix_cons] using hpre
      rw [prefix_of_delimiter hgt, ← List.isPrefixOf_iff_prefix] at hpre'
      simp [hpre'] at hname

/-! ## Attributes -/

/-- Only an `&` can start an entity. -/
theorem replaceQuot_cons {c : Char} (h : c ≠ '&') (rest : Text) :
    replaceQuot (c :: rest) = c :: replaceQuot rest := by
  rw [replaceQuot]
  rintro _ rfl
  exact absurd rfl h

/-- Without entities nothing is replaced. -/
theorem replaceQuot_free {s : Text} (h : '&' ∉ s) : replaceQuot s = s := by
  induction s with
  | nil => rfl
  | cons c s ih =>
      have hc : c ≠ '&' := fun he => h (by simp [he])
      have hs : '&' ∉ s := fun hm => h (by simp [hm])
      rw [replaceQuot_cons hc, ih hs]

/-- The value of an attribute the code can read. -/
theorem replaceQuot_raw {ps : List Piece} (h : ps.all Piece.plain = true) :
    replaceQuot (ps.flatMap Piece.text) = ps.map Piece.meaning := by
  induction ps with
  | nil => rfl
  | cons p ps ih =>
      simp only [List.all_cons, Bool.and_eq_true] at h
      have ih := ih h.2
      cases p with
      | char c plain =>
          simpa [Piece.text, Piece.meaning, replaceQuot_cons plain.2.2] using ih
      | entity e =>
          obtain rfl : e = .quot := by simpa [Piece.plain] using h.1
          simpa [Piece.text, Piece.meaning, Entity.text, Entity.char, replaceQuot] using ih

/-- A character that does not start the separator stays in its part. -/
theorem split_cons {c : Char} {rest : Text} (h : ¬ (c = '\'' ∧ rest.head? = some ' ')) :
    split (c :: rest) = (split rest).modifyHead (c :: ·) := by
  rcases rest with _ | ⟨d, rest⟩
  · rfl
  · rw [split, if_neg (by simpa using h)]

/-- So do characters that are no quotes. -/
theorem split_free {p : Text} (h : '\'' ∉ p) (t : Text) :
    split (p ++ t) = (split t).modifyHead (p ++ ·) := by
  induction p with
  | nil => rcases hs : split t with _ | ⟨x, xs⟩ <;> simp [hs]
  | cons c p ih =>
      have hc : c ≠ '\'' := fun he => h (by simp [he])
      have hp : '\'' ∉ p := fun hm => h (by simp [hm])
      rw [List.cons_append, split_cons (fun hh => hc hh.1), ih hp, List.modifyHead_modifyHead]
      rfl

/-- There is always a part. -/
theorem split_ne_nil (s : Text) : split s ≠ [] := by
  fun_induction split s with
  | case1 => simp
  | case2 => simp
  | case3 => simp
  | case4 c d rest h ih => simpa [List.modifyHead_eq_nil_iff] using ih

/-- An assignment stays in one part, up to its closing quote. -/
theorem split_assignment (a : Attribute) (h : a.plain = true) (t : Text) :
    split (a.assignment ++ '\'' :: t) = (split ('\'' :: t)).modifyHead (a.assignment ++ ·) := by
  have hblank : a.raw.head? ≠ some ' ' := by
    simp only [Attribute.plain, Bool.and_eq_true, decide_eq_true_eq] at h
    exact h.1.2
  have hopen : ¬ ('\'' = '\'' ∧ (a.raw ++ '\'' :: t).head? = some ' ') := by
    rintro ⟨-, hh⟩
    rcases hr : a.raw with _ | ⟨c, r⟩
    · simp [hr] at hh
    · exact hblank (by simpa [hr] using hh)
  have hname : '\'' ∉ a.name.text ++ ['='] := by
    simp [a.name.not_mem, isNameChar, isSpace]
  calc split (a.assignment ++ '\'' :: t)
      = split ((a.name.text ++ ['=']) ++ '\'' :: (a.raw ++ '\'' :: t)) := by
        simp [Attribute.assignment]
    _ = (split ('\'' :: t)).modifyHead (a.assignment ++ ·) := by
        rw [split_free hname, split_cons hopen, split_free (a.raw_not_mem (.inr rfl)),
          List.modifyHead_modifyHead, List.modifyHead_modifyHead]
        congr 1
        funext x
        simp [Attribute.assignment]

/-- The attributes as they are written after the first white space. -/
def joined : List Attribute → Text
  | [] => []
  | [a] => a.assignment ++ ['\'']
  | a :: rest => a.assignment ++ '\'' :: ' ' :: joined rest

/-- One attribute is read: `q` is the closing quote if it is still there. -/
theorem parsePart_assignment (coll : List (Text × Text)) (a : Attribute) (h : a.plain = true)
    (hnew : a.name.text ∉ coll.map Prod.fst) (q : Text) (last : Bool)
    (hq : q.length = last.toNat) :
    parsePart coll (a.assignment ++ q) last = coll ++ [(a.name.text, a.meaning)] := by
  have heq : '=' ∉ a.name.text := a.name.not_mem (by simp [isNameChar, isSpace])
  have hsplit : fastIndexOf (a.assignment ++ q) '=' 0 = (a.name.text.length : Int) := by
    have := fastIndexOf_append (Nat.zero_le _) (by simpa using heq) ('\'' :: a.raw ++ q)
    simpa [Attribute.assignment] using this
  have hname : substring (a.assignment ++ q) 0 a.name.text.length = a.name.text := by
    have := substring_append [] a.name.text ('=' :: '\'' :: a.raw ++ q)
      (a := 0) (b := a.name.text.length) (by simp) (by simp)
    simpa [Attribute.assignment] using this
  have hvalue : substring (a.assignment ++ q) ((a.name.text.length : Int) + 2)
      (if last then (a.assignment ++ q).length - 1 else (a.assignment ++ q).length) = a.raw := by
    have := substring_append (a.name.text ++ ['=', '\'']) a.raw q
      (a := (a.name.text.length : Int) + 2)
      (b := if last then (a.assignment ++ q).length - 1 else (a.assignment ++ q).length)
      (by simp) (by cases last <;> simp [Attribute.assignment, hq] <;> omega)
    simpa [Attribute.assignment] using this
  simp only [Attribute.plain, Bool.and_eq_true, decide_eq_true_eq] at h
  have hmeaning : (if fastIndexOf a.raw '&' 0 ≠ -1 then replaceQuot a.raw else a.raw)
      = a.meaning := by
    have hr : replaceQuot a.raw = a.meaning := replaceQuot_raw h.2
    split
    · exact hr
    · next hnone =>
      have hfree : '&' ∉ a.raw := by
        intro hm
        obtain ⟨p, t, hp, hfree⟩ := List.eq_append_cons_of_mem hm
        have := fastIndexOf_append (Nat.zero_le _) (by simpa using hfree) t
        rw [hp] at hnone
        exact hnone (by simp at this; omega)
      rw [← hr, replaceQuot_free hfree]
  simp only [parsePart, hsplit, hname, hvalue, hmeaning, assign, if_neg h.1.1, if_neg hnew]

/-- The attributes of a tag are read. -/
theorem parseParts_joined (as : List Attribute) (hne : as ≠ [])
    (hplain : as.all Attribute.plain = true) (hnodup : (as.map Attribute.name).Nodup) :
    ∀ coll : List (Text × Text), (∀ a ∈ as, a.name.text ∉ coll.map Prod.fst) →
      parseParts coll (split (joined as)) = coll ++ as.map fun a => (a.name.text, a.meaning) := by
  induction as with
  | nil => exact absurd rfl hne
  | cons a as ih =>
      intro coll hnew
      simp only [List.all_cons, Bool.and_eq_true] at hplain
      simp only [List.map_cons, List.nodup_cons] at hnodup
      have hnewA := hnew a (by simp)
      rcases as with _ | ⟨b, as⟩
      · have := parsePart_assignment coll a hplain.1 hnewA ['\''] true rfl
        simpa [joined, split_assignment a hplain.1, split, parseParts] using this
      · have hfirst : parsePart coll a.assignment false = coll ++ [(a.name.text, a.meaning)] := by
          simpa using parsePart_assignment coll a hplain.1 hnewA [] false rfl
        have hrest := ih (by simp) hplain.2 hnodup.2 (coll ++ [(a.name.text, a.meaning)]) (by
          intro c hc
          have hne : c.name.text ≠ a.name.text := fun he =>
            hnodup.1 (Name.ext he ▸ List.mem_map_of_mem hc)
          simpa [hne] using hnew c (List.mem_cons_of_mem a hc))
        have hmore : (split (joined (b :: as))).isEmpty = false := by
          simpa using split_ne_nil (joined (b :: as))
        rw [joined, split_assignment a hplain.1]
        · simpa [split, parseParts, hmore, hfirst] using hrest
        · simp

/-! ## Tags -/

/-- Attributes that follow each other after one space. -/
theorem flatMap_text_joined (as : List Attribute) (a : Attribute)
    (hspaces : as.all (fun b => b.space.1 = [' ']) = true) :
    (a :: as).flatMap Attribute.text = a.space.1 ++ joined (a :: as) := by
  induction as generalizing a with
  | nil => simp [Attribute.text, joined]
  | cons b as ih =>
      simp only [List.all_cons, Bool.and_eq_true, decide_eq_true_eq] at hspaces
      have := ih b hspaces.2
      rw [List.flatMap_cons, this, hspaces.1]
      simp [Attribute.text, joined]

/-- The attributes of a tag the code can read follow its name and one
character. -/
theorem Head.text_joined (h : Head) (hplain : h.plain = true) :
    h.attributes ≠ [] ∧ h.attributes.all Attribute.plain = true ∧
      ∃ first : Text, first.length = 1 ∧ '>' ∉ first ∧
        h.text = h.name.text ++ first ++ joined h.attributes := by
  unfold Head.plain at hplain
  split at hplain
  · cases hplain
  · next a as has =>
    simp only [Bool.and_eq_true, decide_eq_true_eq, List.isEmpty_iff] at hplain
    obtain ⟨⟨⟨hfirst, hspaces⟩, htrail⟩, hall⟩ := hplain
    refine ⟨by simp [has], hall, a.space.1, hfirst, space_not_mem a.space (by simp [isSpace]), ?_⟩
    simp only [Head.text, has, flatMap_text_joined as a hspaces, htrail, List.append_nil,
      List.append_assoc]

/-- The attributes end with a quote. -/
theorem joined_quote (as : List Attribute) (hne : as ≠ []) : ∃ p, joined as = p ++ ['\''] := by
  induction as with
  | nil => exact absurd rfl hne
  | cons a as ih =>
      rcases as with _ | ⟨b, as⟩
      · exact ⟨a.assignment, rfl⟩
      · obtain ⟨p, hp⟩ := ih (by simp)
        exact ⟨a.assignment ++ '\'' :: ' ' :: p, by simp [joined, hp]⟩

theorem joined_no_gt (as : List Attribute) (hall : as.all Attribute.plain = true) :
    '>' ∉ joined as := by
  induction as with
  | nil => simp [joined]
  | cons a as ih =>
      simp only [List.all_cons, Bool.and_eq_true] at hall
      have hname : '>' ∉ a.name.text := a.name.not_mem (by simp [isNameChar, isSpace])
      have hraw := a.raw_no_gt hall.1
      have hrest := ih hall.2
      rcases as with _ | ⟨b, as⟩
      · simp [joined, Attribute.assignment, hname, hraw]
      · rw [joined]
        · simp [Attribute.assignment, hname, hraw, hrest]
        · simp

/-- There is no `>` in a tag the code can read. -/
theorem Head.text_no_gt (h : Head) (hplain : h.plain = true) : '>' ∉ h.text := by
  obtain ⟨-, hall, first, -, hfirst, htext⟩ := h.text_joined hplain
  have hname : '>' ∉ h.name.text := h.name.not_mem (by simp [isNameChar, isSpace])
  simp [htext, hname, hfirst, joined_no_gt _ hall]

/-- The end of a tag is found. -/
theorem fastIndexOf_gt {p : Text} (h : '>' ∉ p) (t : Text) :
    fastIndexOf ('<' :: p ++ '>' :: t) '>' 1 = (p.length : Int) + 1 := by
  have := fastIndexOf_append (c := '>') (p := '<' :: p) (k := 1) (by simp) (by simpa using h) t
  simpa using this

/-- The character before the end of the tag. -/
theorem charAt_before (p : Text) (c : Char) (t : Text) :
    charAt ('<' :: (p ++ [c]) ++ '>' :: t) (((p ++ [c]).length : Int) + 1 - 1) = some c := by
  have hneg : ¬ ((p.length : Int) + 1) < 0 := by omega
  have hnat : ((p.length : Int) + 1).toNat = p.length + 1 := by omega
  simp [charAt, hneg, hnat]

/-- The attributes of a tag the code can read. -/
theorem parseAttrib_tag (h : Head) (hplain : h.plain = true) (t : Text) {b : Int}
    (hb : b = (h.text.length : Int) + 1) :
    parseAttrib (substring ('<' :: h.text ++ t) (2 + h.name.text.length) b) = h.attrib := by
  obtain ⟨hne, hall, first, hfirst, -, htext⟩ := h.text_joined hplain
  have hcut : substring ('<' :: h.text ++ t) (2 + h.name.text.length) b = joined h.attributes := by
    have := substring_append ('<' :: h.name.text ++ first) (joined h.attributes) t
      (a := 2 + h.name.text.length) (b := b) (by simp [hfirst]; omega)
      (by simp [hb, htext, hfirst]; omega)
    simpa [htext] using this
  rw [hcut, parseAttrib, parseParts_joined h.attributes hne hall h.distinct [] (by simp)]
  rfl

variable {inner : Name → Names} {find : Name → Text → Option (List Tag)}

/-- `parseTag` on an element that closes itself: its "body" is `/>`. -/
theorem parseTag_bodyless (h : Head) (hplain : h.plain = true)
    (hfind : (inner h.name).isNull = true ∨ find h.name ['/', '>'] = some []) (t : Text) :
    parseTag inner find h.name (h.tag true ++ t) =
      some (.mk h.name.text h.attrib [], ((h.tag true).length : Int)) := by
  have hcontent : h.tag true ++ t = '<' :: (h.text ++ ['/']) ++ '>' :: t := by simp [Head.tag]
  have hgt : '>' ∉ h.text ++ ['/'] := by simp [h.text_no_gt hplain]
  have heattr := fastIndexOf_gt hgt t
  have hslash := charAt_before h.text '/' t
  have hattrib : parseAttrib (substring ('<' :: (h.text ++ ['/']) ++ '>' :: t)
      (2 + h.name.text.length) (((h.text ++ ['/']).length : Int) + 1 + -1)) = h.attrib := by
    have := parseAttrib_tag h hplain ('/' :: '>' :: t)
      (b := ((h.text ++ ['/']).length : Int) + 1 + -1) (by
        simp only [List.length_append, List.length_cons, List.length_nil]; omega)
    simpa using this
  have hbody : substring ('<' :: (h.text ++ ['/']) ++ '>' :: t)
      (((h.text ++ ['/']).length : Int) + 1 + 1) (((h.text ++ ['/']).length : Int) + 1 - 1)
        = ['/', '>'] := by
    have := substring_append ('<' :: h.text) ['/', '>'] t
      (a := ((h.text ++ ['/']).length : Int) + 1 - 1)
      (b := ((h.text ++ ['/']).length : Int) + 1 + 1) (by simp) (by simp; omega)
    rw [substring_comm]
    simpa using this
  have hne : ((h.text ++ ['/']).length : Int) + 1 + 1 ≠
      ((h.text ++ ['/']).length : Int) + 1 - 1 := by
    omega
  have hend : ((h.text ++ ['/']).length : Int) + 1 - 1 + 2 = ((h.tag true).length : Int) := by
    simp [Head.tag]
    omega
  rw [hcontent]
  simp only [parseTag, heattr, hslash, if_true, hattrib, hbody, hne, hend, false_or]
  rcases hfind with hnull | hfind
  · simp [hnull]
  · simp [hfind]

/-- `parseTag` on an element with a body: it is cut at its own end tag. -/
theorem parseTag_body (h : Head) (hplain : h.plain = true) (b t : Text)
    (hb : StartsNowhere ('<' :: '/' :: h.name.text) b (h.name.closeTag ++ t)) :
    parseTag inner find h.name (h.tag false ++ b ++ h.name.closeTag ++ t) =
      (if b = [] ∨ (inner h.name).isNull then some [] else find h.name b).map fun children =>
        (.mk h.name.text h.attrib children,
          ((h.tag false ++ b ++ h.name.closeTag).length : Int)) := by
  have hcontent : h.tag false ++ b ++ h.name.closeTag ++ t =
      '<' :: h.text ++ '>' :: (b ++ (h.name.closeTag ++ t)) := by simp [Head.tag]
  have heattr := fastIndexOf_gt (h.text_no_gt hplain) (b ++ (h.name.closeTag ++ t))
  have hquote : charAt ('<' :: h.text ++ '>' :: (b ++ (h.name.closeTag ++ t)))
      ((h.text.length : Int) + 1 - 1) = some '\'' := by
    obtain ⟨hne, -, first, -, -, htext⟩ := h.text_joined hplain
    obtain ⟨p, hp⟩ := joined_quote h.attributes hne
    have htext' : h.text = (h.name.text ++ first ++ p) ++ ['\''] := by simp [htext, hp]
    rw [htext']
    exact charAt_before _ _ _
  have hattrib : parseAttrib (substring ('<' :: h.text ++ '>' :: (b ++ (h.name.closeTag ++ t)))
      (2 + h.name.text.length) ((h.text.length : Int) + 1 + 0)) = h.attrib :=
    parseAttrib_tag h hplain _ (by simp)
  have hclose : indexOf ('<' :: h.text ++ '>' :: (b ++ (h.name.closeTag ++ t)))
      ('<' :: '/' :: h.name.text) ((h.text.length : Int) + 1)
        = (h.text.length : Int) + 1 + 1 + b.length := by
    have hpre : '<' :: '/' :: h.name.text <+: h.name.closeTag ++ t := by
      simp [Name.closeTag]
    have hstart : StartsNowhere ('<' :: '/' :: h.name.text) ('>' :: b) (h.name.closeTag ++ t) := by
      have hgt : StartsNowhere ('<' :: '/' :: h.name.text) ['>'] (b ++ (h.name.closeTag ++ t)) :=
        startsNowhere_free (by simp) _
      exact hgt.append hb
    have hnat : ((h.text.length : Int) + 1).toNat = h.text.length + 1 := by omega
    have hdrop : ('<' :: h.text ++ '>' :: (b ++ (h.name.closeTag ++ t))).drop (h.text.length + 1)
        = '>' :: b ++ (h.name.closeTag ++ t) := by simp
    have hmin : min (h.text.length + 1)
        ('<' :: h.text ++ '>' :: (b ++ (h.name.closeTag ++ t))).length = h.text.length + 1 := by
      simp
    simp only [indexOf, hnat, hmin, hdrop, indexOfFrom_append (by simp) hstart hpre]
    simp
    omega
  have hbody : substring ('<' :: h.text ++ '>' :: (b ++ (h.name.closeTag ++ t)))
      ((h.text.length : Int) + 1 + 1) ((h.text.length : Int) + 1 + 1 + b.length) = b := by
    have := substring_append ('<' :: h.text ++ ['>']) b (h.name.closeTag ++ t)
      (a := (h.text.length : Int) + 1 + 1) (b := (h.text.length : Int) + 1 + 1 + b.length)
      (by simp) (by simp)
    simpa using this
  have hempty :
      (h.text.length : Int) + 1 + 1 = (h.text.length : Int) + 1 + 1 + b.length ↔ b = [] := by
    rw [← List.length_eq_zero_iff]
    omega
  have hend : (h.text.length : Int) + 1 + 1 + b.length + h.name.text.length + 3
      = ((h.tag false ++ b ++ h.name.closeTag).length : Int) := by
    simp [Head.tag, Name.closeTag]
    omega
  have hfalse : ¬ some '\'' = some '/' := by decide
  rw [hcontent]
  simp only [parseTag, heattr, hquote, if_neg hfalse, hattrib, hclose, hbody, hempty, hend]
  split <;> simp

/-! ## The loop of `findTags` -/

/-- No key is compared equal where no name starts. -/
theorem matchesKey_false {content : Text} {key : Name}
    (h : ∀ c, charAt content 1 = some c → isNameChar c = false) :
    matchesKey content key = false := by
  rcases hkey : key.text with _ | ⟨k, ks⟩
  · exact absurd hkey key.nonempty
  · have hk : isNameChar k = true := key.chars k (by simp [hkey])
    have hne : charAt content 1 ≠ some k := fun he => by simp [h k he] at hk
    have hfirst : charAt key.text 0 = some k := by simp [charAt, hkey]
    simp [matchesKey, hfirst, hne]

/-- A key is compared with a tag: it is taken for the tag's name if it is a
prefix of it. -/
theorem matchesKey_tag (n key : Name) {d : Char} (hd : isNameChar d = false) (t : Text) :
    matchesKey ('<' :: n.text ++ d :: t) key = n.claims key := by
  have hpre : key.text <+: n.text ++ d :: t ↔ key.text <+: n.text :=
    prefix_of_delimiter (key.not_mem hd)
  have hclaims : n.claims key = true ↔ 3 ≤ key.text.length ∧ key.text <+: n.text ++ d :: t := by
    rw [hpre, ← List.isPrefixOf_iff_prefix]
    simp [Name.claims]
  obtain ⟨x, y, z, m, hm⟩ | ⟨a, hn, rfl⟩ :
      (∃ x y z m, n.text ++ d :: t = x :: y :: z :: m) ∨ (∃ a, n.text = [a] ∧ t = []) := by
    rcases hn : n.text with _ | ⟨a, _ | ⟨b, n'⟩⟩
    · exact absurd hn n.nonempty
    · rcases t with _ | ⟨e, t⟩
      · exact .inr ⟨a, rfl, rfl⟩
      · exact .inl ⟨a, d, e, t, rfl⟩
    · rcases n' with _ | ⟨c, n'⟩
      · exact .inl ⟨a, b, d, t, rfl⟩
      · exact .inl ⟨a, b, c, n' ++ d :: t, rfl⟩
  -- the tag of one letter at the very end of the content
  case inr =>
    have hshort : n.claims key = false := by
      rw [Bool.eq_false_iff]
      intro h
      have hlen := (hpre.mp (hclaims.mp h).2).length_le
      have := (hclaims.mp h).1
      simp only [hn, List.length_singleton] at hlen
      omega
    have hchar : charAt key.text 1 ≠ some d := fun he =>
      key.not_mem hd (List.mem_of_getElem? (by simpa [charAt] using he))
    have hcontent : charAt ('<' :: n.text ++ [d]) 2 = some d := by simp [charAt, hn]
    rw [hshort]
    simp only [matchesKey, hcontent, Ne.symm hchar, decide_false, Bool.and_false, Bool.false_and]
  rw [Bool.eq_iff_iff, hclaims, List.cons_append, hm]
  rcases hkey : key.text with _ | ⟨a, _ | ⟨b, _ | ⟨c, k⟩⟩⟩
  · exact absurd hkey key.nonempty
  · simp [matchesKey, charAt, hkey]
  · simp [matchesKey, charAt, hkey]
  · have hsub : substring ('<' :: x :: y :: z :: m) 1 (((a :: b :: c :: k).length : Int) + 1)
        = x :: y :: z :: m.take k.length := by
      have hnat : (((a :: b :: c :: k).length : Int) + 1).toNat = k.length + 4 := by
        simp only [List.length_cons]
        omega
      have hone : (1 : Int).toNat = 1 := rfl
      rw [substring, hnat, hone, Nat.max_eq_right (by omega), Nat.min_eq_left (by omega)]
      rfl
    have hmatch : matchesKey ('<' :: x :: y :: z :: m) key = true ↔
        ((x = a ∧ y = b) ∧ z = c) ∧
          ((a :: b :: c :: k).length < 4 ∨
            a :: b :: c :: k = x :: y :: z :: m.take k.length) := by
      have hx : charAt ('<' :: x :: y :: z :: m) 1 = some x := rfl
      have hy : charAt ('<' :: x :: y :: z :: m) 2 = some y := rfl
      have hz : charAt ('<' :: x :: y :: z :: m) 3 = some z := rfl
      have ha : charAt (a :: b :: c :: k) 0 = some a := rfl
      have hb : charAt (a :: b :: c :: k) 1 = some b := rfl
      have hc : charAt (a :: b :: c :: k) 2 = some c := rfl
      simp only [matchesKey, hkey, hx, hy, hz, ha, hb, hc, hsub, Bool.and_eq_true,
        Bool.or_eq_true, decide_eq_true_eq, Option.some.injEq]
    have hlong : ((a :: b :: c :: k).length < 4 ∨
          a :: b :: c :: k = x :: y :: z :: m.take k.length) ∧ x = a ∧ y = b ∧ z = c ↔
        a = x ∧ b = y ∧ c = z ∧ k <+: m := by
      rw [List.prefix_iff_eq_take, List.cons.injEq, List.cons.injEq, List.cons.injEq]
      constructor
      · rintro ⟨hk | ⟨-, -, -, hk⟩, rfl, rfl, rfl⟩
        · simp only [List.length_cons] at hk
          obtain rfl : k = [] := List.eq_nil_of_length_eq_zero (by omega)
          simp
        · exact ⟨rfl, rfl, rfl, hk⟩
      · rintro ⟨rfl, rfl, rfl, hk⟩
        exact ⟨.inr ⟨rfl, rfl, rfl, hk⟩, rfl, rfl, rfl⟩
    rw [hmatch, List.cons_prefix_cons, List.cons_prefix_cons, List.cons_prefix_cons, ← hlong]
    have hthree : 3 ≤ (a :: b :: c :: k).length := by simp
    exact ⟨fun ⟨⟨⟨hx, hy⟩, hz⟩, hk⟩ => ⟨hthree, hk, hx, hy, hz⟩,
      fun ⟨_, hk, hx, hy, hz⟩ => ⟨⟨⟨hx, hy⟩, hz⟩, hk⟩⟩

/-- The recognised element an item is. -/
def Item.tags (names : Names) : Item → List Tag
  | .start _ _ _ => []
  | .close _ _ => []
  | .element h none _ => [.mk h.name.text h.attrib []]
  | .element h (some (_, kids)) _ =>
    [.mk h.name.text h.attrib (elements kids (names.inner h.name))]

/-- The items have the characters of the document. -/
theorem Forest.items_text (keys : List Name) :
    ∀ f : Forest, (f.items keys).flatMap Item.text = f.text := by
  intro f
  induction f with
  | nil => rfl
  | empty h after rest ih =>
      rw [Forest.items, List.flatMap_cons, ih]
      split <;> simp [Item.text, Item.source, Item.after, Forest.text]
  | node h lead kids after rest ihk ihr =>
      rw [Forest.items, List.flatMap_append, ihr]
      split
      · simp [Item.text, Item.source, Item.after, Forest.text]
      · simp [Item.text, Item.source, Item.after, Forest.text, ihk]

/-- The recognised elements of a document are those among its items. -/
theorem Forest.items_tags (names : Names) :
    ∀ f : Forest, (f.items names.keys).flatMap (Item.tags names) = elements f names := by
  intro f
  induction f with
  | nil => rfl
  | empty h after rest ih =>
      rw [Forest.items, List.flatMap_cons, ih, elements]
      split <;> simp [Item.tags]
  | node h lead kids after rest ihk ihr =>
      rw [Forest.items, List.flatMap_append, ihr, elements]
      split
      · simp [Item.tags]
      · simp [Item.tags, ihk]

/-- An item starts with `<`. -/
theorem Item.text_cons (i : Item) : ∃ t, i.text = '<' :: t := by
  rcases i with ⟨h, b, after⟩ | ⟨n, after⟩ | ⟨h, _ | ⟨lead, kids⟩, after⟩ <;>
    exact ⟨_, rfl⟩

/-- There are at most as many items as characters. -/
theorem items_length (items : List Item) : items.length ≤ (items.flatMap Item.text).length := by
  induction items with
  | nil => exact Nat.le_refl _
  | cons i rest ih =>
      obtain ⟨t, ht⟩ := i.text_cons
      simp only [List.flatMap_cons, ht, List.length_append, List.length_cons]
      omega

/-- Items start with `<`, so that the search finds them where they are. -/
theorem seek_items (items : List Item) :
    seek 0 (items.flatMap Item.text) = items.flatMap Item.text := by
  rcases items with _ | ⟨i, rest⟩
  · rfl
  · obtain ⟨t, ht⟩ := i.text_cons
    simp [seek, ht]

/-- After its first character the item of a start tag has no `<`. -/
theorem Item.tail_start (h : Head) (bodyless : Bool) (after : Space) :
    '<' ∉ (Item.start h bodyless after).text.tail := by
  have hafter : '<' ∉ after.1 := space_not_mem after (by simp [isSpace])
  have htag := h.tag_no_lt bodyless
  simpa [Item.text, Item.source, Item.after, Head.tag, hafter] using htag

/-- Neither has that of an end tag. -/
theorem Item.tail_close (name : Name) (after : Space) :
    '<' ∉ (Item.close name after).text.tail := by
  have hafter : '<' ∉ after.1 := space_not_mem after (by simp [isSpace])
  have htag := name.closeTag_no_lt
  simpa [Item.text, Item.source, Item.after, Name.closeTag, hafter] using htag

/-- White space before the items is passed. -/
theorem seek_space (w : Space) (items : List Item) :
    seek 0 (w.1 ++ items.flatMap Item.text) = items.flatMap Item.text := by
  have hfree : '<' ∉ w.1 := space_not_mem w (by simp [isSpace])
  rw [seek, List.drop_zero, dropWhile_free hfree]
  exact seek_items items

section Level

variable {keys : List Name} {inner : Name → Names} {body : Name → Forest → Bool}
  {find : Name → Text → Option (List Tag)}

/-- What the scanner does with the bodies of the elements it finds. -/
structure Descends (inner : Name → Names) (body : Name → Forest → Bool)
    (find : Name → Text → Option (List Tag)) : Prop where
  slash : ∀ name, (inner name).isNull = false → find name ['/', '>'] = some []
  kids : ∀ name (lead : Space) kids, (inner name).isNull = false → body name kids = true →
    find name (lead.1 ++ kids.text) = some (elements kids (inner name))

/-- Nothing is recognised where no name starts. -/
theorem visit_pass {parse : Name → Text → Option (Tag × Int)} {content : Text}
    (h : ∀ c, charAt content 1 = some c → isNameChar c = false) (ftags : List Tag) (last : Int) :
    visit keys parse ftags last content = some (ftags, last) := by
  have hnone : keys.find? (matchesKey content) = none := by
    simp [List.find?_eq_none, matchesKey_false h]
  simp only [visit, hnone]

/-- After its name a tag has a delimiter. -/
theorem Head.tag_delimiter (h : Head) (bodyless : Bool) :
    ∃ d t, isNameChar d = false ∧ h.tag bodyless = '<' :: h.name.text ++ d :: t := by
  have hspace : ∀ c, isSpace c = true → isNameChar c = false := by simp +contextual [isNameChar]
  rcases has : h.attributes with _ | ⟨a, as⟩
  · rcases htrail : h.trail.1 with _ | ⟨c, w⟩
    · cases bodyless
      · exact ⟨'>', [], by decide, by simp [Head.tag, Head.text, has, htrail]⟩
      · exact ⟨'/', ['>'], by decide, by simp [Head.tag, Head.text, has, htrail]⟩
    · exact ⟨c, w ++ if bodyless then ['/', '>'] else ['>'],
        hspace c (h.trail.2 c (by simp [htrail])), by simp [Head.tag, Head.text, has, htrail]⟩
  · rcases hw : a.space.1 with _ | ⟨c, w⟩
    · exact absurd hw a.spaced
    · refine ⟨c, w ++ a.assignment ++ '\'' :: as.flatMap Attribute.text ++ h.trail.1 ++
        if bodyless then ['/', '>'] else ['>'], hspace c (a.space.2 c (by simp [hw])), ?_⟩
      simp [Head.tag, Head.text, has, Attribute.text, hw]

/-- A tag is compared with all keys. -/
theorem find_matchesKey (h : Head) (bodyless : Bool) (t : Text) (keys : List Name) :
    keys.find? (matchesKey (h.tag bodyless ++ t)) = keys.find? h.name.claims := by
  obtain ⟨d, t', hd, htag⟩ := h.tag_delimiter bodyless
  congr 1
  funext key
  have := matchesKey_tag h.name key hd (t' ++ t)
  simpa [htag] using this

/-- The search after an element starts behind it. -/
theorem seek_source (i : Item) (after : Space) (hafter : i.after = after.1) (rest : List Item) :
    seek i.source.length (i.text ++ rest.flatMap Item.text) =
      seek 0 (rest.flatMap Item.text) := by
  have hdrop : (i.text ++ rest.flatMap Item.text).drop i.source.length =
      after.1 ++ rest.flatMap Item.text := by
    simp [Item.text, hafter]
  calc seek i.source.length (i.text ++ rest.flatMap Item.text)
      = seek 0 (after.1 ++ rest.flatMap Item.text) := by rw [seek, hdrop, seek, List.drop_zero]
    _ = seek 0 (rest.flatMap Item.text) := by rw [seek_space, seek_items]

/-- An element with nothing in it is empty. -/
theorem elements_text_nil {kids : Forest} (h : kids.text = []) (names : Names) :
    elements kids names = [] := by
  cases kids with
  | nil => rfl
  | empty h' after rest => simp [Forest.text, Head.tag] at h
  | node h' lead kids after rest => simp [Forest.text, Head.tag] at h

/-- With `null` nothing is recognised. -/
theorem elements_null : ∀ f : Forest, elements f .null = [] := by
  intro f
  induction f with
  | nil => rfl
  | empty h after rest ih => simp [elements, Names.keys, ih]
  | node h lead kids after rest ihk ihr => simp [elements, Names.keys, ihk, ihr]

/-- One turn of the loop at an item the scanner is in step with: what it
finds, and where the search goes on. -/
theorem visit_item (hdesc : Descends inner body find) {i : Item} {rest : List Item} {last : Nat}
    (h : inStep keys body last 0 (i :: rest) = true) (hlast : 0 < last) (ftags : List Tag) :
    ∃ last' gap : Nat,
      visit keys (parseTag inner find) ftags last (i.text ++ rest.flatMap Item.text) =
        some (ftags ++ i.tags (.table keys inner), (last' : Int)) ∧ 0 < last' ∧
      inStep keys body last' gap rest = true ∧
      seek last' (i.text ++ rest.flatMap Item.text) = seek gap (rest.flatMap Item.text) := by
  rcases i with ⟨h', bodyless, after⟩ | ⟨name, after⟩ | ⟨h', _ | ⟨lead, kids⟩, after⟩
  case start =>
    simp only [inStep, Bool.and_eq_true, Bool.or_eq_true, decide_eq_true_eq, ne_eq, not_true,
      false_or, Option.isNone_iff_eq_none, if_true] at h
    refine ⟨last, _, ?_, hlast, h.2, seek_append (Item.tail_start h' bodyless after) hlast _⟩
    have hfind := find_matchesKey h' bodyless (after.1 ++ rest.flatMap Item.text) keys
    rw [h.1] at hfind
    simp only [visit, Item.text, Item.source, Item.after, List.append_assoc, hfind, Item.tags,
      List.append_nil]
  case close =>
    simp only [inStep, if_true] at h
    refine ⟨last, _, ?_, hlast, h, seek_append (Item.tail_close name after) hlast _⟩
    rw [visit_pass]
    · simp [Item.tags]
    · rintro c hc
      obtain rfl : '/' = c := by simpa [charAt, Item.text, Item.source, Name.closeTag] using hc
      simp [isNameChar]
  case element.none =>
    simp only [inStep, Bool.and_eq_true, decide_eq_true_eq] at h
    obtain ⟨⟨⟨-, hkey⟩, hplain⟩, hrest⟩ := h
    refine ⟨_, 0, ?_, ?_, hrest, seek_source _ after rfl rest⟩
    · have hfind := find_matchesKey h' true (after.1 ++ rest.flatMap Item.text) keys
      rw [hkey] at hfind
      have hslash : (inner h'.name).isNull = true ∨ find h'.name ['/', '>'] = some [] := by
        rcases hn : (inner h'.name).isNull
        · exact .inr (hdesc.slash h'.name hn)
        · exact .inl rfl
      simp only [visit, Item.text, Item.source, Item.after, List.append_assoc, hfind,
        parseTag_bodyless h' hplain hslash, Option.map_some, Item.tags]
    · simp [Item.source, Head.tag]
  case element.some =>
    simp only [inStep, Bool.and_eq_true, decide_eq_true_eq] at h
    obtain ⟨⟨⟨⟨⟨-, hkey⟩, hplain⟩, hfree⟩, hbody⟩, hrest⟩ := h
    refine ⟨_, 0, ?_, ?_, hrest, seek_source _ after rfl rest⟩
    · have hfind := find_matchesKey h' false
        (lead.1 ++ kids.text ++ h'.name.closeTag ++ (after.1 ++ rest.flatMap Item.text)) keys
      rw [hkey] at hfind
      have hnowhere : StartsNowhere ('<' :: '/' :: h'.name.text) (lead.1 ++ kids.text)
          (h'.name.closeTag ++ (after.1 ++ rest.flatMap Item.text)) :=
        (startsNowhere_free (space_not_mem lead (by simp [isSpace])) _).append
          (kids.startsNowhere h'.name hfree _)
      have hparse : parseTag inner find h'.name _ = _ := parseTag_body h' hplain _ _ hnowhere
      have hkids : (if lead.1 ++ kids.text = [] ∨ (inner h'.name).isNull then some []
          else find h'.name (lead.1 ++ kids.text)) = some (elements kids (inner h'.name)) := by
        split
        · next hnone =>
          rcases hnone with hnil | hnull
          · rw [elements_text_nil (List.append_eq_nil_iff.mp hnil).2]
          · rcases hn : inner h'.name with _ | ⟨ks, f⟩
            · rw [elements_null]
            · simp [hn, Names.isNull] at hnull
        · next hsome =>
          have hnull : (inner h'.name).isNull = false := by
            simpa using fun hn => hsome (.inr hn)
          exact hdesc.kids h'.name lead kids hnull hbody
      rw [hkids] at hparse
      simp only [List.append_assoc] at hfind hparse
      simp only [visit, Item.text, Item.source, Item.after, List.append_assoc, hfind, hparse,
        Option.map_some, Item.tags, Names.inner]
    · simp [Item.source, Head.tag]

/-- The search goes on at an item the scanner is in step with, past items in
which nothing is to be found. -/
theorem seek_inStep (names : Names) {last : Nat} :
    ∀ (items : List Item) (gap : Nat), inStep keys body last gap items = true →
      ∃ items', seek gap (items.flatMap Item.text) = items'.flatMap Item.text ∧
        inStep keys body last 0 items' = true ∧ items'.length ≤ items.length ∧
        items'.flatMap (Item.tags names) = items.flatMap (Item.tags names) := by
  have hend : ∀ (i : Item) (rest : List Item) (gap : Nat), '<' ∉ i.text.tail → 0 < gap →
      i.tags names = [] →
      (∃ items', seek (gap - i.text.length) (rest.flatMap Item.text) = items'.flatMap Item.text ∧
        inStep keys body last 0 items' = true ∧ items'.length ≤ rest.length ∧
        items'.flatMap (Item.tags names) = rest.flatMap (Item.tags names)) →
      ∃ items', seek gap ((i :: rest).flatMap Item.text) = items'.flatMap Item.text ∧
        inStep keys body last 0 items' = true ∧ items'.length ≤ (i :: rest).length ∧
        items'.flatMap (Item.tags names) = (i :: rest).flatMap (Item.tags names) := by
    rintro i rest gap hlt hgap htags ⟨items', hseek, hstep, hlen, hfound⟩
    refine ⟨items', ?_, hstep, Nat.le_succ_of_le hlen, by simpa [htags] using hfound⟩
    rw [List.flatMap_cons, seek_append hlt hgap, hseek]
  intro items
  induction items with
  | nil => exact fun gap h => ⟨[], by simp [seek], rfl, Nat.le_refl _, rfl⟩
  | cons i rest ih =>
      intro gap h
      rcases Nat.eq_zero_or_pos gap with rfl | hgap
      · exact ⟨i :: rest, seek_items _, h, Nat.le_refl _, rfl⟩
      · have hne : gap ≠ 0 := by omega
        rcases i with ⟨h', bodyless, after⟩ | ⟨name, after⟩ | ⟨h', _ | ⟨lead, kids⟩, after⟩
        case start =>
          simp only [inStep, hne, if_false, Bool.and_eq_true] at h
          exact hend _ rest gap (Item.tail_start h' bodyless after) hgap rfl (ih _ h.2)
        case close =>
          simp only [inStep, hne, if_false] at h
          exact hend _ rest gap (Item.tail_close name after) hgap rfl (ih _ h)
        case element.none => simp [inStep, hne] at h
        case element.some => simp [inStep, hne] at h

/-- **The loop of `findTags` finds the elements among the items it is in step
with**, within one turn for each item. -/
theorem scan_items (hdesc : Descends inner body find) :
    ∀ (n : Nat) (items : List Item), items.length ≤ n → items ≠ [] →
      ∀ (last fuel : Nat), inStep keys body last 0 items = true → 0 < last →
        items.length ≤ fuel → ∀ ftags,
          scan keys (parseTag inner find) fuel ftags last (items.flatMap Item.text) =
            some (ftags ++ items.flatMap (Item.tags (.table keys inner))) := by
  intro n
  induction n with
  | zero =>
      intro items hlen hne
      exact absurd (List.eq_nil_of_length_eq_zero (by omega)) hne
  | succ n ih =>
      intro items hlen hne last fuel hstep hlast hfuel ftags
      rcases items with _ | ⟨i, rest⟩
      · exact absurd rfl hne
      · rcases fuel with _ | fuel
        · simp at hfuel
        · simp only [List.length_cons] at hlen hfuel
          obtain ⟨last', gap, hvisit, hlast', hrest, hseek⟩ := visit_item hdesc hstep hlast ftags
          obtain ⟨items', hnext, hstep', hlen', htags⟩ :=
            seek_inStep (.table keys inner) rest gap hrest
          rw [List.flatMap_cons, scan, hvisit, List.flatMap_cons, ← htags, ← List.append_assoc]
          rcases fastIndexOf_seek (i.text ++ rest.flatMap Item.text) last' with
            ⟨hnil, hndx⟩ | ⟨hfound, ndx, hndx, hsub⟩
          · have hempty : items' = [] := by
              rw [hseek, hnext] at hnil
              rcases items' with _ | ⟨j, items'⟩
              · rfl
              · obtain ⟨t, ht⟩ := j.text_cons
                simp [ht] at hnil
            simp [hndx, hempty]
          · have hne' : items' ≠ [] := by
              rintro rfl
              exact hfound (by rw [hseek, hnext]; rfl)
            have hndx' : ¬ (ndx : Int) = -1 := by omega
            simp only [hndx, if_neg hndx', hsub]
            rw [hseek, hnext]
            exact ih items' (by omega) hne' last' fuel hstep' hlast' (by omega) _

/-- The loop on a document: white space, and then the items. -/
theorem scan_document (hdesc : Descends inner body find) (lead : Space) (items : List Item)
    (h : inStep keys body 1 0 items = true) (fuel : Nat) (hfuel : items.length < fuel) :
    scan keys (parseTag inner find) fuel [] 1 (lead.1 ++ items.flatMap Item.text) =
      some (items.flatMap (Item.tags (.table keys inner))) := by
  by_cases hfirst : lead.1 = [] ∧ items ≠ []
  · rw [hfirst.1]
    exact scan_items hdesc items.length items (Nat.le_refl _) hfirst.2 1 fuel h (by omega)
      (by omega) []
  · obtain ⟨fuel, rfl⟩ : ∃ n, fuel = n + 1 := ⟨fuel - 1, by omega⟩
    have hlt : isNameChar '<' = false := by simp [isNameChar]
    have hshape : (lead.1 = [] ∧ items = []) ∨ ∃ c w, lead.1 = c :: w := by
      rcases hl : lead.1 with _ | ⟨c, w⟩
      · exact .inl ⟨rfl, by simpa [hl] using hfirst⟩
      · exact .inr ⟨c, w, rfl⟩
    have hpass : ∀ c, charAt (lead.1 ++ items.flatMap Item.text) 1 = some c →
        isNameChar c = false := by
      intro c hc
      obtain ⟨hl, rfl⟩ | ⟨c0, _ | ⟨d, w⟩, hl⟩ := hshape
      · simp [hl, charAt] at hc
      · rcases items with _ | ⟨i, items⟩
        · simp [hl, charAt] at hc
        · obtain ⟨t, ht⟩ := i.text_cons
          obtain rfl : '<' = c := by simpa [hl, charAt, ht] using hc
          exact hlt
      · obtain rfl : d = c := by simpa [hl, charAt] using hc
        have hd : isSpace d = true := lead.2 d (by simp [hl])
        simp [isNameChar, hd]
    have hseek : seek 1 (lead.1 ++ items.flatMap Item.text) = items.flatMap Item.text := by
      obtain ⟨hl, rfl⟩ | ⟨c, w, hl⟩ := hshape
      · simp [hl, seek]
      · have hw : '<' ∉ w := fun hm =>
          space_not_mem lead (c := '<') (by simp [isSpace]) (by simp [hl, hm])
        rw [hl, seek, List.cons_append, List.drop_succ_cons, List.drop_zero, dropWhile_free hw]
        exact seek_items items
    rw [scan, visit_pass hpass]
    have hsearch := fastIndexOf_seek (lead.1 ++ items.flatMap Item.text) 1
    rw [show ((1 : Nat) : Int) = 1 from rfl] at hsearch
    rcases hsearch with ⟨hnil, hndx⟩ | ⟨hfound, ndx, hndx, hsub⟩
    · have hempty : items = [] := by
        rw [hseek] at hnil
        rcases items with _ | ⟨j, items⟩
        · rfl
        · obtain ⟨t, ht⟩ := j.text_cons
          simp [ht] at hnil
      simp only [hndx, if_true]
      rw [hempty]
      rfl
    · have hne : items ≠ [] := by
        rintro rfl
        exact hfound (by rw [hseek]; rfl)
      have hndx' : ¬ (ndx : Int) = -1 := by omega
      simp only [hndx, if_neg hndx', hsub]
      rw [hseek]
      exact scan_items hdesc items.length items (Nat.le_refl _) hne 1 fuel h (by omega)
        (by omega) []

end Level

/-- Text without a tag has no elements. -/
theorem findTags_slash (keys : List Name) (inner : Name → Names) :
    findTags (.table keys inner) ['/', '>'] = some [] := by
  have hpass : ∀ c, charAt ['/', '>'] 1 = some c → isNameChar c = false := by
    rintro c hc
    obtain rfl : '>' = c := by simpa [charAt] using hc
    simp [isNameChar]
  have hndx : fastIndexOf ['/', '>'] '<' 1 = -1 := by decide
  rw [findTags, scan, visit_pass hpass]
  simp only [hndx, if_true]

/-- **The scanner finds the elements of a document it keeps in step with.** -/
theorem scanned : ∀ (names : Names), names.isNull = false → ∀ (lead : Space) (f : Forest),
    scannable names f = true → findTags names (lead.1 ++ f.text) = some (elements f names) := by
  intro names
  induction names with
  | null => intro hnull; cases hnull
  | table keys inner ih =>
      intro _ lead f hscan
      have hdesc : Descends inner (fun name kids => scannable (inner name) kids)
          (fun name => findTags (inner name)) := by
        refine ⟨fun name hnull => ?_, fun name lead kids hnull hkids => ?_⟩
        · rcases hn : inner name with _ | ⟨keys', inner'⟩
          · simp [hn, Names.isNull] at hnull
          · exact findTags_slash keys' inner'
        · exact ih name hnull lead kids hkids
      have hlen : (f.items keys).length < (lead.1 ++ f.text).length + 1 := by
        have := items_length (f.items keys)
        rw [f.items_text] at this
        simp only [List.length_append]
        omega
      have hrun := scan_document hdesc lead (f.items keys) hscan _ hlen
      rw [f.items_text] at hrun
      rw [findTags, hrun, ← f.items_tags (.table keys inner)]
      rfl

/-! ## Termination -/

/-- An index that is found is not before the first one. -/
theorem fastIndexOfFrom_ge (c : Char) (s : Text) (i : Nat) :
    fastIndexOfFrom c s i = -1 ∨ (i : Int) ≤ fastIndexOfFrom c s i := by
  fun_induction fastIndexOfFrom c s i with
  | case1 => exact .inl rfl
  | case2 => exact .inr (Int.le_refl _)
  | case3 d rest i hne ih => omega

/-- The same for `indexOf`. -/
theorem indexOfFrom_ge (pattern s : Text) (i : Nat) :
    indexOfFrom pattern s i = -1 ∨ (i : Int) ≤ indexOfFrom pattern s i := by
  fun_induction indexOfFrom pattern s i with
  | case1 => exact .inr (Int.le_refl _)
  | case2 => exact .inl rfl
  | case3 => exact .inr (Int.le_refl _)
  | case4 d rest i hne ih => omega

/-- `parseTag` returns on every content, and the search goes on behind the
first character. -/
theorem parseTag_total {inner : Name → Names} {find : Name → Text → Option (List Tag)}
    (hfind : ∀ n body, (inner n).isNull = false → (find n body).isSome) (n : Name)
    (content : Text) : ∃ tag last, parseTag inner find n content = some (tag, last) ∧ 1 ≤ last := by
  have heattr : fastIndexOf content '>' 1 = -1 ∨ 1 ≤ fastIndexOf content '>' 1 :=
    fastIndexOfFrom_ge '>' (content.drop 1) 1
  have hebody : ∀ from', -1 ≤ indexOf content ('<' :: '/' :: n.text) from' := by
    intro from'
    have := indexOfFrom_ge ('<' :: '/' :: n.text)
      (content.drop (min from'.toNat content.length)) (min from'.toNat content.length)
    simp only [indexOf]
    omega
  have hslash : charAt content (fastIndexOf content '>' 1 - 1) = some '/' →
      1 ≤ fastIndexOf content '>' 1 := by
    intro h
    rcases heattr with hnone | hge
    · simp [hnone, charAt] at h
    · exact hge
  have hresult : ∀ attrib body (last : Int), 1 ≤ last →
      ∃ tag last', (if (fastIndexOf content '>' 1 + 1 = body ∨ (inner n).isNull) then
          some (Tag.mk n.text attrib [], last)
        else (find n (substring content (fastIndexOf content '>' 1 + 1) body)).map
          fun children => (Tag.mk n.text attrib children, last)) = some (tag, last') ∧
        1 ≤ last' := by
    intro attrib body last hlast
    split
    · exact ⟨_, _, rfl, hlast⟩
    · next hne =>
      have hnull : (inner n).isNull = false := by simpa using fun hn => hne (.inr hn)
      obtain ⟨children, hsome⟩ := Option.isSome_iff_exists.mp (hfind n
        (substring content (fastIndexOf content '>' 1 + 1) body) hnull)
      exact ⟨_, _, by rw [hsome]; rfl, hlast⟩
  unfold parseTag
  by_cases hbodyless : charAt content (fastIndexOf content '>' 1 - 1) = some '/'
  · have := hslash hbodyless
    simp only [hbodyless, if_true]
    exact hresult _ _ _ (by omega)
  · have := hebody (fastIndexOf content '>' 1)
    simp only [hbodyless, if_false]
    exact hresult _ _ _ (by omega)

/-- A turn of the loop over the keys returns, and the next search is not at the
first character. -/
theorem visit_total (keys : List Name) {parse : Name → Text → Option (Tag × Int)}
    (hparse : ∀ n content, ∃ tag last, parse n content = some (tag, last) ∧ 1 ≤ last)
    (ftags : List Tag) {last : Int} (hlast : 1 ≤ last) (content : Text) :
    ∃ ftags' last', visit keys parse ftags last content = some (ftags', last') ∧ 1 ≤ last' := by
  unfold visit
  split
  · next key _ =>
    obtain ⟨tag, tagEnd, hp, hend⟩ := hparse key content
    exact ⟨_, _, by rw [hp]; rfl, hend⟩
  · exact ⟨_, _, rfl, hlast⟩

/-- The search that goes on leaves less than the whole content. -/
theorem search_removes (content : Text) {last : Int} (hlast : 1 ≤ last) :
    fastIndexOf content '<' last = -1 ∨
      (fastIndexOf content '<' last ≠ -1 ∧ ∃ removed, removed ≠ [] ∧
        content = removed ++
          substring content (fastIndexOf content '<' last) content.length) := by
  obtain ⟨k, rfl⟩ : ∃ k : Nat, last = k := ⟨last.toNat, by omega⟩
  rcases fastIndexOf_seek content k with ⟨-, hndx⟩ | ⟨hfound, ndx, hndx, hsub⟩
  · exact .inl hndx
  · rw [hndx, hsub]
    refine .inr ⟨by omega, ?_⟩
    obtain ⟨removed, hremoved⟩ : seek k content <:+ content :=
      (List.dropWhile_suffix _).trans (List.drop_suffix k content)
    have hlength : (seek k content).length ≤ content.length - k := by
      have := (List.dropWhile_suffix (l := content.drop k) (· ≠ '<')).length_le
      simpa [seek] using this
    have hpos : 0 < (seek k content).length := List.length_pos_iff.mpr hfound
    refine ⟨removed, ?_, hremoved.symm⟩
    intro hnil
    rw [hnil, List.nil_append] at hremoved
    rw [hremoved] at hlength hpos
    omega

/-- The content gets shorter with every turn of the loop. -/
theorem scan_total {keys : List Name} {parse : Name → Text → Option (Tag × Int)}
    (hparse : ∀ n content, ∃ tag last, parse n content = some (tag, last) ∧ 1 ≤ last) :
    ∀ (fuel : Nat) (ftags : List Tag) (last : Int) (content : Text), content.length < fuel →
      1 ≤ last → (scan keys parse fuel ftags last content).isSome := by
  intro fuel
  induction fuel with
  | zero => intro _ _ content h; omega
  | succ fuel ih =>
      intro ftags last content hlen hlast
      obtain ⟨ftags', last', hvisit, hlast'⟩ := visit_total keys hparse ftags hlast content
      rw [scan, hvisit]
      rcases search_removes content hlast' with hndx | ⟨hndx, removed, hne, hcontent⟩
      · simp only [hndx, if_true, Option.isSome_some]
      · have hpos : 0 < removed.length := List.length_pos_iff.mpr hne
        have hlength := congrArg List.length hcontent
        rw [List.length_append] at hlength
        simp only [if_neg hndx]
        exact ih ftags' last' _ (by omega) hlast'

/-- **`findTags` returns on every content**, well-formed or not. -/
theorem findTags_total : ∀ (names : Names), names.isNull = false → ∀ content : Text,
    (findTags names content).isSome := by
  intro names
  induction names with
  | null => intro hnull; cases hnull
  | table keys inner ih =>
      intro _ content
      exact scan_total (parseTag_total fun n body hn => ih n hn body) _ [] 1 content
        (Nat.lt_succ_self _) (Int.le_refl 1)

/-! ## Three documents -/

/-- A name from its characters. -/
def name (text : Text) (h : text ≠ [] ∧ ∀ c ∈ text, isNameChar c = true) : Name :=
  ⟨text, h.1, h.2⟩

/-- No white space. -/
def noSpace : Space := ⟨[], by simp⟩

/-- `<n name='c'` for one character `c`. -/
def named (n : Name) (c : Char) (h : c ≠ '\'' ∧ c ≠ '<' ∧ c ≠ '&') : Head where
  name := n
  attributes :=
    [{ space := ⟨[' '], by simp [isSpace]⟩, spaced := by decide,
       name := name ['n', 'a', 'm', 'e'] (by simp [isNameChar, isSpace]), value := [.char c h] }]
  distinct := by simp
  trail := noSpace

/-- `<n` without attributes. -/
def bare (n : Name) : Head where
  name := n
  attributes := []
  distinct := by simp
  trail := noSpace

def enum : Name := name ['e', 'n', 'u', 'm'] (by simp [isNameChar, isSpace])
def function : Name := name ['f', 'u', 'n', 'c', 't', 'i', 'o', 'n'] (by simp [isNameChar, isSpace])
def arg : Name := name ['a', 'r', 'g'] (by simp [isNameChar, isSpace])
def opaqueName : Name := name ['o', 'p', 'a', 'q', 'u', 'e'] (by simp [isNameChar, isSpace])

/-- `{enum: null, function: {arg: null}}` -/
def bridgeNames : Names :=
  .table [enum, function] fun n => if n = function then .table [arg] fun _ => .null else .null

/-- `<opaque><enum name='a'/><function name='f'><arg name='x'/></function></opaque>` -/
def nested : Forest :=
  .node (bare opaqueName) noSpace
    (.empty (named enum 'a' (by decide)) noSpace
      (.node (named function 'f' (by decide)) noSpace
        (.empty (named arg 'x' (by decide)) noSpace .nil) noSpace .nil)) noSpace .nil

/-- `scanned` at a document with an element inside an unrecognised one, and an
argument inside a function. -/
theorem scanned_nested :
    bridgeNames.isNull = false ∧ scannable bridgeNames nested = true ∧
      findTags bridgeNames (noSpace.1 ++ nested.text) = some (elements nested bridgeNames) :=
  ⟨rfl, by decide, scanned bridgeNames rfl noSpace nested (by decide)⟩

/-- `<enum name='a'/><opaque/><enum name='b'/>` -/
def interrupted : Forest :=
  .empty (named enum 'a' (by decide)) noSpace
    (.empty (bare opaqueName) noSpace
      (.empty (named enum 'b' (by decide)) noSpace .nil))

/-- **The scanner loses elements**: after `<opaque/>` it goes on as many
characters further as the element before had, past the start of the next. -/
theorem scan_skips_element :
    ¬ ∀ (names : Names), names.isNull = false → ∀ (lead : Space) (f : Forest),
      findTags names (lead.1 ++ f.text) = some (elements f names) := by
  intro h
  have hfound := congrArg (Option.map List.length) (h bridgeNames rfl noSpace interrupted)
  have hone : (findTags bridgeNames (noSpace.1 ++ interrupted.text)).map List.length = some 1 := by
    decide
  have htwo : (some (elements interrupted bridgeNames)).map List.length = some 2 := by decide
  rw [hone, htwo] at hfound
  cases hfound

/-- `<enum name='a'/><opaque/><enum name='b'><enum name='b'/></enum>` -/
def repeated : Forest :=
  .empty (named enum 'a' (by decide)) noSpace
    (.empty (bare opaqueName) noSpace
      (.node (named enum 'b' (by decide)) noSpace
        (.empty (named enum 'b' (by decide)) noSpace .nil) noSpace .nil))

-- Out of step, the scanner can still return the right list by chance: here
-- the element it finds is a copy of the lost one inside it.
example : scannable bridgeNames repeated = false ∧
    findTags bridgeNames repeated.text = some (elements repeated bridgeNames) :=
  ⟨by decide, by rfl⟩

end BridgeImport
