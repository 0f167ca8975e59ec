import PageTemplate.Translation

/-!
Message catalogs: translated messages by domain and language. A message is looked up for the target language and then
for its base language. Catalogs are also read from text in which each message has an id and a translated text as quoted
literals; the first line that cannot be read ends the reading, and the messages before it stay.
-/

namespace PageTemplate

def messageKey (domain language msgid : Bytes) : Bytes := domain ++ [4] ++ language ++ [4] ++ msgid

/-- Translated texts by message key. -/
structure Catalog where
  messages : Assoc Bytes := []
  deriving DecidableEq, Repr, Inhabited

namespace Catalog

def add (c : Catalog) (domain language msgid msgstr : Bytes) : Catalog :=
  ⟨c.messages.insert (messageKey domain language msgid) msgstr⟩

def size (c : Catalog) : Nat := c.messages.length

/-- The languages to look a message up for: the language itself and, before a `_` or a `-` that does not
begin it, its base language. -/
def languages (language : Bytes) : List Bytes :=
  let base := language.takeWhile fun b => b != Byte.underscore && b != Byte.minus
  if base.isEmpty || base.length = language.length then [language] else [language, base]

/-- The translated text of a message, which is empty when there is none. -/
def translate (c : Catalog) (msgid domain language : Bytes) : Bytes :=
  ((languages language).findSome? fun l => c.messages.get? (messageKey domain l msgid)).getD []

def hook (c : Catalog) : Hook := fun m => .ok (c.translate m.msgid m.domain m.language)

/-! Reading. -/

/-- The part of an entry that a literal belongs to. -/
inductive Part where
  | context
  | msgid
  | msgstr
  | ignored
  deriving DecidableEq, Repr, Inhabited

structure Entry where
  context : Option Bytes := none
  msgid : Option Bytes := none
  msgstr : Option Bytes := none
  fuzzy : Bool := false
  complete : Bool := false
  deriving DecidableEq, Repr, Inhabited

namespace Entry

/-- The message id and the text of an entry that is to be kept: it has both, is not marked as a guess,
and holds for every context. -/
def message? (e : Entry) : Option (Bytes × Bytes) :=
  match e.msgid, e.msgstr with
  | some id, some str =>
    if !id.isEmpty && !str.isEmpty && !e.fuzzy && e.context.isNone then some (id, str) else none
  | _, _ => none

def start (e : Entry) : Part → Entry
  | .context => { e with context := some [] }
  | .msgid => { e with msgid := some [] }
  | .msgstr => { e with msgstr := some [], complete := true }
  | .ignored => e

def extend (e : Entry) (s : Bytes) : Part → Entry
  | .context => { e with context := e.context.map (· ++ s) }
  | .msgid => { e with msgid := e.msgid.map (· ++ s) }
  | .msgstr => { e with msgstr := e.msgstr.map (· ++ s) }
  | .ignored => e

end Entry

/-- The state of reading: the catalog so far, the number of messages added, the open entry, and the part
that a continued literal belongs to. -/
structure Reading where
  catalog : Catalog
  domain : Bytes
  language : Bytes
  added : Nat := 0
  entry : Entry := {}
  part : Option Part := none
  deriving Inhabited

namespace Reading

def flush (r : Reading) : Reading :=
  let r :=
    match r.entry.message? with
    | some (id, str) => { r with catalog := r.catalog.add r.domain r.language id str, added := r.added + 1 }
    | none => r
  { r with entry := {}, part := none }

def start (r : Reading) (p : Part) : Reading :=
  let r := if r.entry.complete then r.flush else r
  { r with entry := r.entry.start p, part := some p }

def keyword (r : Reading) (word : Bytes) : Except Bytes Reading :=
  if word.isEmpty then
    if r.part.isNone then .error (utf8 "continuation without a keyword") else .ok r
  else if word == utf8 "msgctxt" then .ok (r.start .context)
  else if word == utf8 "msgid" then
    .ok ((if r.entry.complete || r.entry.msgid.isSome then r.flush else r).start .msgid)
  else if word == utf8 "msgid_plural" then .ok { r with part := some .ignored }
  else if word == utf8 "msgstr" || word == utf8 "msgstr[0]" then .ok (r.start .msgstr)
  else if (utf8 "msgstr[").isPrefixOf word then .ok { r with part := some .ignored }
  else .error (utf8 "unexpected keyword " ++ Text.quote word)

def lineMessage (n : Nat) (reason : Bytes) : Bytes := utf8 "line " ++ Bytes.ofNat n ++ utf8 ": " ++ reason

/-- The reading after the `n`-th line, and what is wrong with the line. A keyword takes effect, closing the
entry before it, even when no literal follows it. -/
def line (r : Reading) (n : Nat) (raw : Bytes) : Reading × Option Failure :=
  let s := Text.trim raw
  if s.isEmpty then (r.flush, none)
  else if s.head? = some Byte.hash then
    let r := if r.entry.complete then r.flush else r
    if (utf8 "#,").isPrefixOf s && Bytes.hasInfix (utf8 "fuzzy") s then
      ({ r with entry := { r.entry with fuzzy := true } }, none)
    else (r, none)
  else
    let (word, rest) : Bytes × Bytes :=
      if s.head? = some Byte.doubleQuote then ([], s) else (Bytes.breakAt? Byte.space s).getD (s, [])
    match r.keyword word with
    | .error reason => (r, some (.plain (lineMessage n reason)))
    | .ok r =>
      match Text.unquote? (Text.trim rest), r.part with
      | some value, some p => ({ r with entry := r.entry.extend value p }, none)
      | _, _ =>
        (r, some (.wrapped (lineMessage n (utf8 "invalid string " ++ rest)) (.plain (utf8 "invalid syntax"))))

def longestLine : Nat := 65535

def lines (r : Reading) (n : Nat) : List Bytes → Reading × Option Failure
  | [] => (r.flush, none)
  | raw :: rest =>
    if raw.length > longestLine then (r, some (.plain (utf8 "bufio.Scanner: token too long")))
    else
      let raw := if raw.getLast? = some Byte.carriageReturn then raw.dropLast else raw
      match r.line n raw with
      | (r, none) => r.lines (n + 1) rest
      | (r, some f) => (r, some f)

end Reading

def sourceLines (s : Bytes) : List Bytes :=
  let parts := Bytes.splitAt Byte.newline s
  if parts.getLast? = some [] then parts.dropLast else parts

/-- The catalog with the messages of a text added for a domain and a language. The result also tells what
went wrong, or else what to log. -/
def read (c : Catalog) (s domain language : Bytes) : Catalog × Except Failure Bytes :=
  match Reading.lines { catalog := c, domain, language } 1 (sourceLines s) with
  | (r, some f) => (r.catalog, .error f)
  | (r, none) =>
    (r.catalog, .ok (utf8 "loaded " ++ Bytes.ofNat r.added ++ utf8 " messages for domain " ++ Text.quote domain ++
      utf8 ", language " ++ Text.quote language))

end Catalog

end PageTemplate
