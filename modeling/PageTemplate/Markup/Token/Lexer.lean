import PageTemplate.Markup.Token
import PageTemplate.Markup.Name

/-!
Cutting a source into tokens. Every byte belongs to exactly one token: what is not recognised as markup
is text up to the next `<`. A lexeme is found by its kind and by how many bytes it has beyond the
first, so the rest of the source always shrinks.
-/

namespace PageTemplate.Markup

def delimited (skip : Nat) (terminator s : Bytes) : Option Nat :=
  (Bytes.indexOf? terminator (s.drop skip)).map fun i => skip + i + terminator.length

def endTagRest : Bytes → Option Nat
  | slash :: first :: s =>
    if slash = Byte.slash && isNameStart first then
      let s' := (s.dropWhile isNameByte).dropWhile Byte.isBlank
      match s' with
      | c :: _ => if c = Byte.greater then some (2 + (s.length - s'.length) + 1) else none
      | [] => none
    else none
  | _ => none

/-- The kind and length of the rest of a tag, read byte by byte. `quote` is the quote that is open and
`last` the last byte that is not blank: a quote opens only after an equals sign, and a slash before
the end makes the tag empty. Outside quotes a `<`, a zero byte or the end of input is no tag. -/
def tagRest (quote : Option UInt8) (last : UInt8) : Bytes → Option (TokenKind × Nat)
  | [] => none
  | c :: s =>
    match quote with
    | some q =>
      (if c = q then tagRest none q s else tagRest (some q) last s).map fun r => (r.1, r.2 + 1)
    | none =>
      if c = Byte.nul || c = Byte.less then none
      else if c = Byte.greater then some (if last = Byte.slash then .emptyTag else .startTag, 1)
      else if Byte.isQuote c && last = Byte.equals then
        (tagRest (some c) last s).map fun r => (r.1, r.2 + 1)
      else (tagRest none (if Byte.isBlank c then last else c) s).map fun r => (r.1, r.2 + 1)

def markupRest (s : Bytes) : Option (TokenKind × Nat) :=
  if (utf8 "!--").isPrefixOf s then (delimited 3 (utf8 "-->") s).map fun n => (.comment, n)
  else if (utf8 "![CDATA[").isPrefixOf s then (delimited 8 (utf8 "]]>") s).map fun n => (.cdata, n)
  else if (utf8 "!").isPrefixOf s then
    match s.drop 1 with
    | c :: _ =>
      if Byte.isLetter c then (delimited 1 (utf8 ">") s).map fun n => (.declaration, n) else none
    | [] => none
  else if (utf8 "?").isPrefixOf s then
    (delimited 1 (utf8 "?>") s).map fun n => (.processingInstruction, n)
  else if (utf8 "/").isPrefixOf s then (endTagRest s).map fun n => (.endTag, n)
  else
    match s with
    | c :: _ => if isNameStart c then tagRest none Byte.nul s else none
    | [] => none

def textRest (s : Bytes) : Nat := (s.takeWhile (· ≠ Byte.less)).length

def lexeme (c : UInt8) (s : Bytes) : TokenKind × Nat :=
  if c = Byte.less then (markupRest s).getD (.text, textRest s) else (.text, textRest s)

def tokensFrom (source filename : Bytes) (pos : Nat) : Bytes → List Token
  | [] => []
  | c :: s =>
    let l := lexeme c s
    let value := c :: s.take l.2
    ⟨l.1, value, pos, source, filename⟩ :: tokensFrom source filename (pos + value.length) (s.drop l.2)
termination_by s => s.length

def tokenize (source filename : Bytes) : List Token := tokensFrom source filename 0 source

end PageTemplate.Markup
