import Bson.Wire.Decode

/-!
# Reading documents from a byte source

* `ByteSource`          what a source will deliver: pieces of bytes of any size, and failures
                        among them;
* `ByteSource.readExactly`  a number of bytes. An interruption is passed over, and a failure that
                        says the end was met counts as the end; what came before a failure is
                        consumed;
* `ByteSource.readRaw`  one document; a length that is refused is all that is consumed;
* `Config.read`         one document, decoded in a shape and a nesting mode;
* `DocumentStream`      documents one after another: `next` gives nothing where the source ends
                        between two documents, and nothing after an error.
-/

namespace Bson

inductive FailureKind where
  | interrupted
  | unexpectedEof
  | other
  deriving DecidableEq, Repr

/-- what a source delivers next: some bytes, or a failure with its text -/
inductive Arrival where
  | data (bytes : Bytes)
  | failure (kind : FailureKind) (text : String)
  deriving DecidableEq, Repr

/-- what a source will still deliver; it has ended when nothing is left -/
abbrev ByteSource := List Arrival

abbrev SourceReader := EStateM Error ByteSource

namespace ByteSource

def arrived : Arrival → Bytes
  | .data bs => bs
  | .failure _ _ => []

def content (source : ByteSource) : Bytes := source.flatMap arrived

def readExactly : (n : Nat) → SourceReader Bytes
  | 0, source => .ok [] source
  | _ + 1, [] => .error Fault.unexpectedEof.error []
  | n + 1, .data bs :: rest =>
    if n + 1 ≤ bs.length then .ok (bs.take (n + 1)) (.data (bs.drop (n + 1)) :: rest)
    else
      match readExactly (n + 1 - bs.length) rest with
      | .ok more source => .ok (bs ++ more) source
      | .error e source => .error e source
  | n + 1, .failure kind text :: rest =>
    match kind with
    | .interrupted => readExactly (n + 1) rest
    | .unexpectedEof => .error Fault.unexpectedEof.error rest
    | .other => .error (.io text) rest

/-- exactly `n` bytes, or nothing where the source has ended; `begun` tells whether bytes before
them were read already. Any failure but an interruption is one of the source. -/
def readOrEnd : (n : Nat) → (begun : Bool) → SourceReader (Option Bytes)
  | 0, _, source => .ok (some []) source
  | _ + 1, begun, [] => if begun then .error Fault.unexpectedEof.error [] else .ok none []
  | n + 1, begun, .data bs :: rest =>
    if n + 1 ≤ bs.length then .ok (some (bs.take (n + 1))) (.data (bs.drop (n + 1)) :: rest)
    else
      match readOrEnd (n + 1 - bs.length) (begun || !bs.isEmpty) rest with
      | .ok more source => .ok (more.map (bs ++ ·)) source
      | .error e source => .error e source
  | n + 1, begun, .failure kind text :: rest =>
    match kind with
    | .interrupted => readOrEnd (n + 1) begun rest
    | _ => .error (.io text) rest

def lift {α : Type} (result : Except Error α) : SourceReader α := fun source =>
  match result with
  | .ok a => .ok a source
  | .error e => .error e source

/-- the rest of a document behind its length -/
def readBody (ceiling : Nat) (front : Bytes) : SourceReader RawDocument := do
  let declared ← lift (declaredLength ceiling (Bytes.toInt32 front))
  let body ← readExactly (declared - 4)
  return ⟨front ++ body⟩

def readRaw (ceiling : Nat) : SourceReader RawDocument := do
  let front ← readExactly 4
  readBody ceiling front

end ByteSource

def Config.read (config : Config) (shape : Shape) (nesting : Nesting) : SourceReader Value := do
  let doc ← ByteSource.readRaw config.maxDocumentSize
  ByteSource.lift (config.decode shape nesting doc.bytes)

structure DocumentStream where
  source : ByteSource
  ceiling : Nat := Config.standard.maxDocumentSize
  done : Bool := false

namespace DocumentStream

/-- the next document with the length in front of it, or nothing at the end of the source -/
def readNext (ceiling : Nat) : SourceReader (Option RawDocument) := do
  match ← ByteSource.readOrEnd 4 false with
  | none => return none
  | some front => some <$> ByteSource.readBody ceiling front

def next (s : DocumentStream) : Option (Except Error RawDocument) × DocumentStream :=
  if s.done then (none, s)
  else
    match readNext s.ceiling s.source with
    | .ok none source => (none, { s with source, done := true })
    | .ok (some doc) source => (some (.ok doc), { s with source })
    | .error e source => (some (.error e), { s with source, done := true })

/-- what a number of calls give, and the stream after them -/
def run : Nat → DocumentStream → List (Option (Except Error RawDocument)) × DocumentStream
  | 0, s => ([], s)
  | n + 1, s =>
    let (item, s) := s.next
    let (items, s) := run n s
    (item :: items, s)

end DocumentStream

end Bson
