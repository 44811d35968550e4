import Bson.Double
import Bson.Error

/-!
# Writing onto a buffer

A `Writer` adds bytes to the end of a buffer. It succeeds or fails with an error, and the buffer
keeps what was written before the failure.

* `Writer.put`, `Writer.int32`, `Writer.int64`, `Writer.double`  bytes and words;
* `Writer.cstring`     a text and a zero byte; a text that holds a zero byte is refused, and nothing
                       of it is written;
* `Writer.string`      a text behind its length, which counts the zero byte after it;
* `Writer.reserve`     four bytes for a length that is not known yet, and where they stand;
* `Writer.patch`       such a length, counted from where it stands to the end of the buffer;
* `Writer.finish`      the terminator of a document, and its length;
* `Writer.enclosed`    the elements of a document between its length and its terminator;
* `Writer.within`      a writer whose errors are seen from one level up.

A length has to fit four bytes (`Writer.length?`).
-/

namespace Bson

/-- a step of writing: the buffer before and after it -/
abbrev Writer := EStateM Error Bytes

namespace Writer

variable {α β : Type}

def put (bs : Bytes) : Writer Unit := fun buffer => .ok () (buffer ++ bs)

/-- fails at the root of what is written, and writes nothing -/
def fail (f : Fault) : Writer α := fun buffer => .error f.error buffer

def int32 (n : Int32) : Writer Unit := put (Bytes.ofInt32 n)

def int64 (n : Int64) : Writer Unit := put (Bytes.ofInt64 n)

def double (d : Double) : Writer Unit := put (Bytes.ofUInt64 d.bits)

/-- a length as a word, if it fits -/
def length? (n : Nat) : Writer Int32 :=
  if n < 0x80000000 then pure (Int32.ofNat n) else fail (.invalidLength n)

def cstring (s : String) : Writer Unit :=
  if 0 ∈ utf8 s then fail .interiorNul else put (utf8 s ++ [0])

def string (s : String) : Writer Unit := do
  let n ← length? ((utf8 s).length + 1)
  int32 n
  put (utf8 s ++ [0])

/-- room for a length; gives where it stands -/
def reserve : Writer Nat := fun buffer => .ok buffer.length (buffer ++ [0, 0, 0, 0])

/-- the length of what stands from `start` on, in the four bytes reserved there -/
def patch (start : Nat) : Writer Unit := fun buffer =>
  match length? (buffer.length - start) buffer with
  | .ok n _ => .ok () (buffer.take start ++ Bytes.ofInt32 n ++ buffer.drop (start + 4))
  | .error e _ => .error e buffer

/-- the terminator of a document whose length stands at `start`, and the length -/
def finish (start : Nat) : Writer Unit := do
  put [0]
  patch start

def enclosed (elements : Writer Unit) : Writer Unit := do
  let start ← reserve
  elements
  finish start

def within (name : String) (w : Writer α) : Writer α := fun buffer =>
  match w buffer with
  | .ok a buffer' => .ok a buffer'
  | .error e buffer' => .error (e.within name) buffer'

/-- the bytes written onto an empty buffer -/
def written (w : Writer Unit) : Except Error Bytes :=
  match w [] with
  | .ok _ buffer => .ok buffer
  | .error e _ => .error e

/-- the buffer afterwards, written in full or in part -/
def buffer (w : Writer α) (before : Bytes) : Bytes :=
  match w before with
  | .ok _ after => after
  | .error _ after => after

/-! ### equations -/

@[simp] theorem put_apply (bs before : Bytes) : put bs before = .ok () (before ++ bs) := rfl

@[simp] theorem fail_apply (f : Fault) (before : Bytes) :
    (fail f : Writer α) before = .error f.error before := rfl

end Writer

end Bson
