import ArrayFlow.Text.Decimal

/-!
# Tokens of YAML text

YAML text is cut into tokens from left to right. Indentation becomes explicit: collections in block
style are put between tokens that open and close them. Whether a scalar is a key shows only at the
colon behind it, so the token that announces a key is put in later, at the place noted for it.

* `Yaml.Token`    : the tokens;
* `Yaml.Cursor`   : a place in the text;
* `Yaml.Scanner`  : the tokens so far, the indentation, and the places where a key may have started;
* `Yaml.Scanner.next` : the tokens up to and with the next one of the text;
* `Yaml.tokens?`  : the tokens of a text, if it can be cut into tokens.

Tags, anchors, aliases, directives and scalars in block style are not part of the language read
here.
-/

namespace ArrayFlow.Yaml

inductive Token where
  | documentStart
  | documentEnd
  | blockSeqStart
  | blockMapStart
  | blockEnd
  | flowSeqStart
  | flowSeqEnd
  | flowMapStart
  | flowMapEnd
  | blockEntry
  | flowEntry
  | key
  | value
  | scalar (text : String) (plain : Bool)
  deriving DecidableEq, Inhabited, Repr

/-! ## characters -/

def byteOrderMark : Char := '\ufeff'

/-- May the character occur in a text? Control characters may not. -/
def isAllowed (c : Char) : Bool :=
  let n := c.toNat
  n == 9 || n == 10 || n == 13 || (32 ≤ n && n ≤ 126) || n == 0x85 || (0xa0 ≤ n && n ≤ 0xd7ff) ||
    (0xe000 ≤ n && n ≤ 0xfffd) || 0x10000 ≤ n

def isBlank (c : Char) : Bool := c == ' ' || c == '\t'

def isBreak (c : Char) : Bool := c == '\n' || c == '\u2028' || c == '\u2029'

/-- Is the character a blank or the end of a line? -/
def isSpace (c : Char) : Bool := isBlank c || isBreak c

/-- Is there nothing, or a blank, or the end of a line at the front of a text? -/
def spaceOrEnd : List Char → Bool
  | c :: _ => isSpace c
  | [] => true

/-- Characters with a meaning inside brackets. -/
def isFlowIndicator (c : Char) : Bool :=
  c == ',' || c == '[' || c == ']' || c == '\x7b' || c == '\x7d'

/-- Characters that no scalar without quotes starts with. -/
def isIndicator (c : Char) : Bool := "-?:,[]\x7b\x7d#&*!|>'\"%@`".toList.contains c

/-- The text with one character for each end of a line. -/
def normalizeBreaks : List Char → List Char
  | '\r' :: '\n' :: rest => '\n' :: normalizeBreaks rest
  | '\r' :: rest => '\n' :: normalizeBreaks rest
  | '\u0085' :: rest => '\n' :: normalizeBreaks rest
  | c :: rest => c :: normalizeBreaks rest
  | [] => []

/-! ## places in the text -/

/-- A place in the text, with what follows it. -/
structure Cursor where
  rest : List Char
  /-- The number of bytes in front of it. -/
  index : Nat
  line : Nat
  column : Nat
  deriving Inhabited

namespace Cursor

/-- The place after one character. -/
def advance (k : Cursor) : Cursor :=
  match k.rest with
  | [] => k
  | c :: rest =>
    let index := k.index + c.utf8Size
    if isBreak c then ⟨rest, index, k.line + 1, 0⟩ else ⟨rest, index, k.line, k.column + 1⟩

def advanceBy : Nat → Cursor → Cursor
  | 0, k => k
  | n + 1, k => advanceBy n k.advance

def atMarker (k : Cursor) : Bool :=
  k.column == 0 &&
    match k.rest with
    | a :: b :: c :: rest => (a == '-' || a == '.') && b == a && c == a && spaceOrEnd rest
    | _ => false

/-- The blanks and line ends at this place. -/
def gap (k : Cursor) : List Char := k.rest.takeWhile isSpace

end Cursor

/-- What blanks and line ends between two parts of a scalar stand for: blanks stay, one line end
becomes a blank, and the first of several is dropped. -/
def foldGap (gap : List Char) : List Char :=
  match gap.filter isBreak with
  | [] => gap
  | first :: more => if first == '\n' then (if more.isEmpty then [' '] else more) else first :: more

/-! ## scalars without quotes -/

/-- Is there a tab left of the indentation? Looked for on the lines after the first one. -/
def tabInIndent (indent : Int) : (column : Option Nat) → List Char → Bool
  | _, [] => false
  | column, c :: rest =>
    if isBreak c then tabInIndent indent (some 0) rest
    else
      match column with
      | none => tabInIndent indent none rest
      | some n => (c == '\t' && (n : Int) < indent) || tabInIndent indent (some (n + 1)) rest

/-- The characters of a scalar without quotes up to a blank or an indicator. Inside brackets a colon
may not stand in front of a bracket or comma. -/
def plainRun (inFlow : Bool) : List Char → Option (List Char)
  | [] => some []
  | c :: rest =>
    if isSpace c then some []
    else if c == ':' && spaceOrEnd rest then some []
    else if inFlow && c == ':' && rest.head?.any (fun d => isFlowIndicator d || d == '?') then none
    else if inFlow && isFlowIndicator c then some []
    else (plainRun inFlow rest).map (c :: ·)

/-- A scalar without quotes: its text, the place after it, and whether that place is on a new line.
`text` is what was read so far, and `space` the gap behind it. -/
def plainScalar (inFlow : Bool) (indent : Int) : (fuel : Nat) → (text space : List Char) → Cursor →
    Option (List Char × Cursor × Bool)
  | 0, _, _, _ => none
  | fuel + 1, text, space, k =>
    let onNewLine := space.any isBreak
    if k.atMarker || k.rest.head? == some '#' then some (text, k, onNewLine)
    else do
      let run ← plainRun inFlow k.rest
      if run.isEmpty then return (text, k, onNewLine)
      let text := text ++ foldGap space ++ run
      let k := k.advanceBy run.length
      let gap := k.gap
      if gap.isEmpty then return (text, k, false)
      if tabInIndent indent none gap then none
      let k := k.advanceBy gap.length
      if !inFlow && (k.column : Int) < indent then return (text, k, gap.any isBreak)
      plainScalar inFlow indent fuel text gap k

/-! ## scalars in quotes -/

/-- The character that a letter stands for after a backslash. -/
def unescape? (c : Char) : Option Char :=
  match c with
  | '0' => some '\x00'
  | 'a' => some '\x07'
  | 'b' => some '\x08'
  | 't' => some '\t'
  | '\t' => some '\t'
  | 'n' => some '\n'
  | 'v' => some '\x0b'
  | 'f' => some '\x0c'
  | 'r' => some '\r'
  | 'e' => some '\x1b'
  | ' ' => some ' '
  | '"' => some '"'
  | '/' => some '/'
  | '\\' => some '\\'
  | 'N' => some '\u0085'
  | '_' => some '\u00a0'
  | 'L' => some '\u2028'
  | 'P' => some '\u2029'
  | _ => none

/-- How many hexadecimal digits follow a letter after a backslash. -/
def escapeLength? (c : Char) : Option Nat :=
  match c with
  | 'x' => some 2
  | 'u' => some 4
  | 'U' => some 8
  | _ => none

/-- The character that an escape stands for, and the number of characters it takes after the
backslash. -/
def escape? : List Char → Option (Char × Nat)
  | [] => none
  | c :: rest =>
    match escapeLength? c with
    | some n => do
      let value ← (rest.take n).foldlM (fun v d => (Text.digit? d).map (16 * v + ·)) 0
      if (rest.take n).length < n then none
      if (0xd800 ≤ value ∧ value ≤ 0xdfff) ∨ 0x10ffff < value then none
      return (Char.ofNat value, n + 1)
    | none => (unescape? c).map (·, 1)

/-- A scalar in quotes, after its opening quote: its text and the place after it. -/
def quotedScalar (quote : Char) : (fuel : Nat) → (text : List Char) → Cursor →
    Option (List Char × Cursor)
  | 0, _, _ => none
  | fuel + 1, text, k =>
    if k.atMarker then none
    else
      match k.rest with
      | [] => none
      | c :: rest =>
        if isSpace c then quotedScalar quote fuel (text ++ foldGap k.gap) (k.advanceBy k.gap.length)
        else if c == quote then
          if quote == '\'' && rest.head? == some '\'' then quotedScalar quote fuel (text ++ ['\''])
            (k.advanceBy 2)
          else some (text, k.advance)
        else if quote == '"' && c == '\\' then
          if rest.head?.any isBreak then
            -- an escaped line end vanishes with the blanks after it, further line ends stay
            let k := k.advanceBy 2
            quotedScalar quote fuel (text ++ k.gap.filter isBreak) (k.advanceBy k.gap.length)
          else
            match escape? rest with
            | some (d, n) => quotedScalar quote fuel (text ++ [d]) (k.advanceBy (n + 1))
            | none => none
        else quotedScalar quote fuel (text ++ [c]) k.advance

/-! ## the scanner -/

/-- A place where a key may have started. -/
structure KeyPlace where
  /-- Must there be a key, because nothing else can stand at this column? -/
  required : Bool
  /-- The number of tokens in front of it. -/
  position : Nat
  place : Cursor
  deriving Inhabited

/-- The state of the scanner. -/
structure Scanner where
  cursor : Cursor
  tokens : List Token
  /-- The column of the innermost collection in block style, `-1` outside of all. -/
  indent : Int
  /-- The columns of the collections around it, innermost first. -/
  indents : List Int
  /-- May a key start at this place? -/
  keyAllowed : Bool
  key : Option KeyPlace
  /-- What `key` was in front of each open bracket, innermost first. -/
  outer : List (Option KeyPlace)
  deriving Inhabited

namespace Scanner

/-- The scanner at the start of a text. -/
def start (text : List Char) : Scanner := ⟨⟨text, 0, 0, 0⟩, [], -1, [], true, none, []⟩

def inFlow (s : Scanner) : Bool := !s.outer.isEmpty

def push (s : Scanner) (t : Token) : Scanner := { s with tokens := s.tokens ++ [t] }

def skip (s : Scanner) (n : Nat) : Scanner := { s with cursor := s.cursor.advanceBy n }

/-- Goes on over blanks, comments and line ends. A tab counts as a blank where no key may start. -/
def skipGap : (fuel : Nat) → (comment : Bool) → Scanner → Scanner
  | 0, _, s => s
  | fuel + 1, comment, s =>
    match s.cursor.rest with
    | [] => s
    | c :: _ =>
      if isBreak c then skipGap fuel false { s.skip 1 with keyAllowed := s.keyAllowed || !s.inFlow }
      else if comment || c == ' ' || (c == '\t' && (s.inFlow || !s.keyAllowed)) then
        skipGap fuel comment (s.skip 1)
      else if c == '#' then skipGap fuel true (s.skip 1)
      else if c == byteOrderMark && s.cursor.column == 0 then skipGap fuel false (s.skip 1)
      else s

/-- Gives up a place where a key may have started; a key that must be there cannot be given up. -/
def dropKey (s : Scanner) : Option Scanner :=
  if s.key.any (·.required) then none else some { s with key := none }

/-- A key is on one line and not longer than 1024 bytes: is the place too far behind? -/
def KeyPlace.isStale (now : Cursor) (p : KeyPlace) : Bool :=
  p.place.line < now.line || p.place.index + 1024 < now.index

/-- Gives up the places that are too far behind. -/
def dropStale (s : Scanner) : Option Scanner :=
  let stale (p : Option KeyPlace) : Bool := p.any (KeyPlace.isStale s.cursor)
  if (s.key :: s.outer).any fun p => stale p && p.any (·.required) then none
  else some { s with
    key := if stale s.key then none else s.key
    outer := s.outer.map fun p => if stale p then none else p }

/-- Notes that a key may start here. -/
def saveKey (s : Scanner) : Option Scanner :=
  if s.keyAllowed then do
    let required := !s.inFlow && s.indent == s.cursor.column
    let s' ← s.dropKey
    return { s' with key := some ⟨required, s.tokens.length, s.cursor⟩ }
  else some s

/-- Closes the collections in block style that are further right than a column. -/
def unroll (s : Scanner) (column : Int) : Scanner :=
  if s.inFlow then s else go s.indents s
where
  /-- Closes collections one by one, for the columns around them. -/
  go : List Int → Scanner → Scanner
    | [], s => s
    | i :: is, s => if column < s.indent then
        go is { s.push .blockEnd with indent := i, indents := is } else s

/-- Opens a collection in block style, if the column is further right than the innermost one. Its
token is put at a position among the tokens. -/
def roll (s : Scanner) (column : Nat) (position : Nat) (t : Token) : Scanner :=
  if s.inFlow || (column : Int) ≤ s.indent then s
  else { s with
    indent := column
    indents := s.indent :: s.indents
    tokens := s.tokens.insertIdx position t }

/-! ## single tokens -/

def marker (s : Scanner) (t : Token) : Option Scanner := do
  let s ← (s.unroll (-1)).dropKey
  return ({ s with keyAllowed := false }.push t).skip 3

def openFlow (s : Scanner) (t : Token) : Option Scanner := do
  let s ← s.saveKey
  return ({ s with key := none, outer := s.key :: s.outer, keyAllowed := true }.push t).skip 1

/-- A closing bracket; too many of them are for the grammar to refuse. -/
def closeFlow (s : Scanner) (t : Token) : Option Scanner := do
  let s ← s.dropKey
  let s := match s.outer with
    | k :: ks => { s with key := k, outer := ks }
    | [] => s
  return ({ s with keyAllowed := false }.push t).skip 1

def separator (s : Scanner) : Option Scanner := do
  let s ← s.dropKey
  return ({ s with keyAllowed := true }.push .flowEntry).skip 1

def item (s : Scanner) : Option Scanner := do
  if !s.inFlow && !s.keyAllowed then none
  let s := s.roll s.cursor.column s.tokens.length .blockSeqStart
  let s ← s.dropKey
  return ({ s with keyAllowed := true }.push .blockEntry).skip 1

def explicitKey (s : Scanner) : Option Scanner := do
  if !s.inFlow && !s.keyAllowed then none
  let s := s.roll s.cursor.column s.tokens.length .blockMapStart
  let s ← s.dropKey
  return ({ s with keyAllowed := !s.inFlow }.push .key).skip 1

def colon (s : Scanner) : Option Scanner :=
  match s.key with
  | some p =>
    let s := { s with tokens := s.tokens.insertIdx p.position .key }
    let s := s.roll p.place.column p.position .blockMapStart
    some (({ s with key := none, keyAllowed := false }.push .value).skip 1)
  | none =>
    if !s.inFlow && !s.keyAllowed then none
    else
      let s := s.roll s.cursor.column s.tokens.length .blockMapStart
      some (({ s with keyAllowed := !s.inFlow }.push .value).skip 1)

def quoted (s : Scanner) (quote : Char) : Option Scanner := do
  let s ← s.saveKey
  let k := s.cursor.advance
  let (text, k) ← quotedScalar quote (k.rest.length + 1) [] k
  return { s with keyAllowed := false, cursor := k }.push (.scalar (String.ofList text) false)

def plain (s : Scanner) : Option Scanner := do
  let s ← s.saveKey
  let (text, k, onNewLine) ← plainScalar s.inFlow (s.indent + 1)
    (s.cursor.rest.length + 1) [] [] s.cursor
  return { s with keyAllowed := onNewLine, cursor := k }.push (.scalar (String.ofList text) true)

def finish (s : Scanner) : Option Scanner := (s.unroll (-1)).dropKey

/-- May a scalar without quotes start with the character, in front of the rest? -/
def startsPlain (inFlow : Bool) (c : Char) (rest : List Char) : Bool :=
  (!isSpace c && !isIndicator c) || (c == '-' && !rest.head?.any isBlank) ||
    (!inFlow && (c == '?' || c == ':') && !spaceOrEnd rest)

/-- The token at the place of the scanner, which starts with a character. -/
def token (s : Scanner) (c : Char) (rest : List Char) : Option Scanner :=
  if s.cursor.column == 0 && c == '%' then none
  else if s.cursor.atMarker then s.marker (if c == '-' then .documentStart else .documentEnd)
  else if c == '[' then s.openFlow .flowSeqStart
  else if c == '\x7b' then s.openFlow .flowMapStart
  else if c == ']' then s.closeFlow .flowSeqEnd
  else if c == '\x7d' then s.closeFlow .flowMapEnd
  else if c == ',' then s.separator
  else if c == '-' && spaceOrEnd rest then s.item
  else if c == '?' && (s.inFlow || spaceOrEnd rest) then s.explicitKey
  else if c == ':' && (s.inFlow || spaceOrEnd rest) then s.colon
  else if c == '\'' || c == '"' then s.quoted c
  else if startsPlain s.inFlow c rest then s.plain
  else none

/-- The scanner after the next token, and whether the text has ended. -/
def next (s : Scanner) : Option (Scanner × Bool) := do
  let s ← (skipGap s.cursor.rest.length false s).dropStale
  let s := s.unroll s.cursor.column
  match s.cursor.rest with
  | [] => return (← s.finish, true)
  | c :: rest => return (← s.token c rest, false)

/-- All tokens. Each takes at least one character. -/
def all : (fuel : Nat) → Scanner → Option (List Token)
  | 0, _ => none
  | fuel + 1, s => do
    let (s, ended) ← s.next
    if ended then return s.tokens else all fuel s

end Scanner

def tokens? (text : String) : Option (List Token) :=
  if text.toList.all isAllowed then
    let cs := normalizeBreaks text.toList
    Scanner.all (cs.length + 1) (.start cs)
  else none

end ArrayFlow.Yaml
