import SecretsBroker.Config
import SecretsBroker.Foundations.Json

/-!
# Editing the text of a policy

The byte-level part of `internal/admin/policy.go`: the patterns that find the parts of a policy text
and the functions that cut and insert there. Every pattern begins with `^`, ends with `$` in
multi-line mode and matches no newline, so a match is a whole line (without its newline); a pattern
is a function on lines here. None of these functions looks at the meaning of the text: that is
checked afterwards, by parsing what they produce.
-/

namespace SecretsBroker.Admin

/-! ## Lines -/

def newline : UInt8 := 0x0A
def carriageReturn : UInt8 := 0x0D

/-- A blank of the patterns: `[\t ]`. -/
def isBlank (c : UInt8) : Bool := c == 0x09 || c == 0x20

def dropBlanks (s : Bytes) : Bytes := s.dropWhile isBlank

/-- `[^\r\n]*\r?$` -/
def isRest (s : Bytes) : Bool :=
  let rest := s.dropWhile fun c => c != carriageReturn
  rest == [] || rest == [carriageReturn]

/-- `[\t ]*(?:#[^\r\n]*)?\r?$` -/
def isTail (s : Bytes) : Bool :=
  match dropBlanks s with
  | [] => true
  | c :: rest => if c = 0x23 then isRest rest else c == carriageReturn && rest == []

/-- The pattern of a header line: `^[\t ]*header[\t ]*(?:#[^\r\n]*)?\r?$`. -/
def isHeader (header line : Bytes) : Bool :=
  match header.isPrefixOf? (dropBlanks line) with
  | some rest => isTail rest
  | none => false

/-- `projectHeaderPattern` -/
def projectHeaderPattern : Bytes → Bool := isHeader (str "[[projects]]")

/-- `allowHeaderPattern` -/
def allowHeaderPattern : Bytes → Bool := isHeader (str "[[projects.allow]]")

/-- `argvPattern`: `^[\t ]*argv[\t ]*=[^\r\n]*\r?$`. -/
def argvPattern (line : Bytes) : Bool :=
  match (str "argv").isPrefixOf? (dropBlanks line) with
  | some rest =>
    match dropBlanks rest with
    | c :: rest => c == 0x3D && isRest rest
    | [] => false
  | none => false

/-- The rest of a line after a double-quoted value whose opening quote is read:
`(?:\\.|[^"\\\r\n])*"`. -/
def scanQuoted : Bytes → Option Bytes
  | [] => none
  | c :: rest =>
    if c = 0x22 then some rest
    else if c = 0x5C then
      match rest with
      | [] => none
      | _ :: rest => scanQuoted rest
    else if c = carriageReturn then none
    else scanQuoted rest

/-- The rest of a line after a single-quoted value whose opening quote is read: `[^'\r\n]*'`. -/
def scanLiteral : Bytes → Option Bytes
  | [] => none
  | c :: rest =>
    if c = 0x27 then some rest else if c = carriageReturn then none else scanLiteral rest

def scanValue : Bytes → Option Bytes
  | [] => none
  | c :: rest =>
    if c = 0x22 then scanQuoted rest else if c = 0x27 then scanLiteral rest else none

/-- The pattern of a string field (`approvalPattern`, and the one of `replaceProjectField`): where
the value starts and ends in the line. -/
def fieldPattern (field line : Bytes) : Option (ℕ × ℕ) := do
  let rest ← field.isPrefixOf? (dropBlanks line)
  match dropBlanks rest with
  | [] => none
  | c :: rest =>
    if c = 0x3D then
      let value := dropBlanks rest
      let rest ← scanValue value
      if isTail rest then some (line.length - value.length, line.length - rest.length) else none
    else none

/-- The lines of a text with the offset of their first byte. -/
def lines (offset : ℕ) : List Bytes → List (ℕ × Bytes)
  | [] => []
  | line :: rest => (offset, line) :: lines (offset + line.length + 1) rest

def linesOf (data : Bytes) : List (ℕ × Bytes) := lines 0 (data.splitOn newline)

/-- `FindAllIndex`: where the lines that match start and end. -/
def findAllIndex (pattern : Bytes → Bool) (data : Bytes) : List (ℕ × ℕ) :=
  ((linesOf data).filter fun l => pattern l.2).map fun l => (l.1, l.1 + l.2.length)

/-- `FindAllSubmatchIndex` for a field: where the values start and end. -/
def findAllValues (field data : Bytes) : List (ℕ × ℕ) :=
  (linesOf data).filterMap fun l =>
    (fieldPattern field l.2).map fun span => (l.1 + span.1, l.1 + span.2)

/-- `data[start:stop]` -/
def slice (data : Bytes) (start stop : ℕ) : Bytes := (data.take stop).drop start

/-- The text with the bytes from `start` to `stop` replaced. -/
def splice (data : Bytes) (start stop : ℕ) (value : Bytes) : Bytes :=
  data.take start ++ value ++ data.drop stop

/-- The line ending of a text: `\r\n` as soon as it occurs. -/
def newlineOf (data : Bytes) : Bytes :=
  if (data.zip data.tail).contains (carriageReturn, newline) then [carriageReturn, newline]
  else [newline]

/-- The byte before an offset is not a newline. -/
def midLine (data : Bytes) (offset : ℕ) : Bool :=
  match (data.take offset).getLast? with
  | some c => c != newline
  | none => false

/-! ## Blocks -/

def errProjectBlocks : Bytes :=
  str "policy layout is not editable: expected one [[projects]] block per project"
def errProjectOutside : Bytes := str "selected project is outside the editable policy layout"
def errAllowBlocks : Bytes :=
  str "policy layout is not editable: expected one [[projects.allow]] block per allowlist entry"

/-- The header of the selected project, and where the next one or the text ends. Both
`removeProjectSpan` and `projectBlockBounds` begin with this. -/
def projectHeader (data : Bytes) (projectCount projectIndex : ℕ) : Except Bytes ((ℕ × ℕ) × ℕ) :=
  let headers := findAllIndex projectHeaderPattern data
  if headers.length ≠ projectCount then .error errProjectBlocks
  else
    match headers[projectIndex]? with
    | none => .error errProjectOutside
    | some header =>
      .ok (header, ((headers[projectIndex + 1]?).map Prod.fst).getD data.length)

def removeProjectSpan (data : Bytes) (projectCount projectIndex : ℕ) : Except Bytes Bytes := do
  let (header, stop) ← projectHeader data projectCount projectIndex
  pure (splice data header.1 stop [])

def projectBlockBounds (data : Bytes) (projectCount projectIndex : ℕ) : Except Bytes (ℕ × ℕ) := do
  let (header, stop) ← projectHeader data projectCount projectIndex
  pure (header.2, stop)

def consumeNewline (data : Bytes) (index : ℕ) : ℕ :=
  if data[index]? = some newline then index + 1 else index

/-! ## Edits -/

def replaceApproval (data : Bytes) (projectCount projectIndex : ℕ) (approval : Bytes) :
    Except Bytes Bytes := do
  let (start, stop) ← projectBlockBounds data projectCount projectIndex
  let block := slice data start stop
  match findAllValues (str "approval") block with
  | _ :: _ :: _ => throw (str "selected project has more than one approval field")
  | [value] => pure (splice data (start + value.1) (start + value.2) (0x22 :: approval ++ [0x22]))
  | [] =>
    let insertAt :=
      match findAllIndex allowHeaderPattern block with
      | header :: _ => start + header.1
      | [] => stop
    let line := str "approval = \"" ++ approval ++ [0x22] ++ newlineOf data
    let line := if midLine data insertAt then newlineOf data ++ line else line
    pure (splice data insertAt insertAt line)

def replaceProjectField (data : Bytes) (projectCount projectIndex : ℕ) (field value : Bytes) :
    Except Bytes Bytes := do
  let (start, stop) ← projectBlockBounds data projectCount projectIndex
  match findAllValues field (slice data start stop) with
  | [span] => pure (splice data (start + span.1) (start + span.2) (Json.encodeString value))
  | _ => throw (str "policy layout is not editable: expected one single-line " ++ field ++
      str " field in the selected project")

/-- `json.Marshal` of an argument vector that is not nil. -/
def encodeArgv (argv : List Bytes) : Bytes := Json.encodeArray (argv.map Json.encodeString)

def insertAllowEntry (data : Bytes) (projectCount projectIndex allowCount : ℕ)
    (argv : List Bytes) : Except Bytes Bytes := do
  let (start, stop) ← projectBlockBounds data projectCount projectIndex
  if (findAllIndex allowHeaderPattern (slice data start stop)).length ≠ allowCount then
    throw errAllowBlocks
  let nl := newlineOf data
  let entry := str "  [[projects.allow]]" ++ nl ++ str "  argv = " ++ encodeArgv argv ++ nl
  pure (splice data stop stop (if midLine data stop then nl ++ entry else entry))

/-- The spans of one entry to remove: its header line and its `argv` line. -/
def allowEntrySpans (data block : Bytes) (start : ℕ) (allowHeaders : List (ℕ × ℕ)) (index : ℕ) :
    Except Bytes (List (ℕ × ℕ)) :=
  match allowHeaders[index]? with
  | none => .error (str "selected allowlist entry is outside the editable policy layout")
  | some header =>
    let sectionEnd := ((allowHeaders[index + 1]?).map Prod.fst).getD block.length
    match findAllIndex argvPattern (slice block header.2 sectionEnd) with
    | [argv] =>
      .ok [(start + header.1, consumeNewline data (start + header.2)),
        (start + header.2 + argv.1, consumeNewline data (start + header.2 + argv.2))]
    | _ =>
      .error (str "policy layout is not editable: expected one single-line argv field per [[projects.allow]] block")

/-- The last loop of `removeAllowEntries`: what is left of the text from `cursor` on. -/
def cutSpans (data : Bytes) (cursor : ℕ) : List (ℕ × ℕ) → Except Bytes Bytes
  | [] => .ok (data.drop cursor)
  | span :: spans =>
    if span.1 < cursor then
      .error (str "selected allowlist entries overlap in the editable policy layout")
    else do
      let rest ← cutSpans data span.2 spans
      pure (slice data cursor span.1 ++ rest)

def removeAllowEntries (data : Bytes) (projectCount projectIndex allowCount : ℕ)
    (remove : List ℕ) : Except Bytes Bytes := do
  let (start, stop) ← projectBlockBounds data projectCount projectIndex
  let block := slice data start stop
  let allowHeaders := findAllIndex allowHeaderPattern block
  if allowHeaders.length ≠ allowCount then throw errAllowBlocks
  let spans ← remove.mapM (allowEntrySpans data block start allowHeaders)
  cutSpans data 0 spans.flatten

def appendProject (data : Bytes) (project : Project) : Bytes :=
  let nl := newlineOf data
  let updated := if data ≠ [] ∧ ¬ nl <:+ data then data ++ nl else data
  let updated := if updated ≠ [] ∧ ¬ (nl ++ nl) <:+ updated then updated ++ nl else updated
  updated ++ nl.intercalate
    [str "[[projects]]",
      str "alias = " ++ Json.encodeString project.projectAlias,
      str "bws_project_id = " ++ Json.encodeString project.bwsProjectID,
      str "token_entry = " ++ Json.encodeString project.tokenEntry,
      str "working_dir = " ++ Json.encodeString project.workingDir,
      str "approval = \"" ++ Config.ApprovalAllowlistedPrompt ++ str "\""] ++ nl

end SecretsBroker.Admin
