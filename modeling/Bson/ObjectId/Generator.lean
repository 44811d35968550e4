import Bson.ObjectId
import Bson.Digest.Sha256

/-!
# Making identifiers

A `Generator` numbers the identifiers it makes. An identifier holds, most significant byte first,
the seconds of the clock (four bytes), three bytes of a hash of the host name, the low sixteen bits
of the process number, and the low 24 bits of the number of the call, which starts at one.

* `Generator.ofIdentity`   the generator of a host and a process;
* `Generator.next`         one identifier, for a reading of the clock in seconds, and the generator
                           after it;
* `Generator.skip`         the generator after a number of calls.

Bytes 4 to 9 are the same in all identifiers of one generator; `Generator.tail` gives the bytes
after the clock.
-/

namespace Bson

/-- the state of a generator: the number of calls so far, and who makes the identifiers -/
structure Generator where
  counter : UInt32
  machine : Bytes
  process : UInt16
  length_machine : machine.length = 3 := by decide

namespace Generator

def bigEndian (w n : Nat) : Bytes := (Bytes.ofNat w n).reverse

@[simp] theorem length_bigEndian (w n : Nat) : (bigEndian w n).length = w := by simp [bigEndian]

/-- the generator of a host name and a process number, before its first call -/
def ofIdentity (host : String) (process : UInt32) : Generator :=
  ⟨0, (Sha256.digest (utf8 host)).take 3, process.toUInt16, by simp⟩

/-- what follows the clock in the identifier of a call: machine, process, counter -/
def tail (g : Generator) (count : UInt32) : Bytes :=
  g.machine ++ bigEndian 2 g.process.toNat ++ bigEndian 3 count.toNat

@[simp] theorem length_tail (g : Generator) (count : UInt32) : (g.tail count).length = 8 := by
  simp [tail, g.length_machine]

/-- the identifier of the call number `count` at a reading of the clock -/
def identifier (g : Generator) (count seconds : UInt32) : ObjectId :=
  ⟨bigEndian 4 seconds.toNat ++ g.tail count, by simp⟩

def next (g : Generator) (seconds : UInt32) : ObjectId × Generator :=
  (g.identifier (g.counter + 1) seconds, { g with counter := g.counter + 1 })

/-- the generator after `n` calls, whose identifiers are not looked at -/
def skip (g : Generator) (n : Nat) : Generator :=
  { g with counter := g.counter + UInt32.ofNat n }

/-- the identifiers of one call for each reading of the clock, and the generator after them -/
def run (g : Generator) : List UInt32 → List ObjectId × Generator
  | [] => ([], g)
  | seconds :: rest =>
    let (id, g') := g.next seconds
    let (ids, g'') := run g' rest
    (id :: ids, g'')

@[simp] theorem skip_zero (g : Generator) : g.skip 0 = g := by simp [skip]

end Generator

end Bson
