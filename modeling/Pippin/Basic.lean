import Mathlib.Data.List.AList
import Mathlib.Data.String.Basic

/-! # The data the sequences classifier works on

    `examples/sequences.rs` drives a `pippin` repository whose classifier routes a
    `Sequence` by its length.  This file fixes the data that the classifier code reads
    and writes: partition identifiers, the per-partition record `PartInfo`, the map
    `parts : HashMap<PartId, PartInfo>`, the sorted view `SeqClassifier`, the state
    `SeqRepo`, and the errors the code returns.

    `PartId` belongs to the `pippin` crate, which is not part of this repository.  What
    the code uses of it beyond its number (`PartId::max_num()`, the `u64` form that
    `write_buf` and `read_buf` exchange) is the parameter `PartIdSpace`.  A `HashMap` is
    an `AList`: a list of entries with distinct keys, whose order stands for the
    (unspecified) iteration order of the map. -/

namespace Pippin

/-- A partition identifier, by its number (`PartId::from_num`, `PartId::into_num`). -/
structure PartId where
  num : Nat
  deriving DecidableEq, Repr

/-- The classifier's record for one partition (the partition's own identifier is the
    key of `parts`).  The `u32` fields wrap on overflow, as in a release build. -/
structure PartInfo where
  maxPartId : PartId
  /-- Information version; increased each time the partition changes. -/
  ver : UInt32
  minLen : UInt32
  maxLen : UInt32
  deriving DecidableEq, Repr

/-- What the code uses of `pippin::PartId`: `PartId::max_num()`, the conversion
    `u64::from(PartId)` and the check `PartId::try_from(u64)`.  Valid identifiers are
    the numbers `1 ..= max_num`, and `try_from` gives each of them back from its `u64`
    form.  Partition numbers are `u64`s; the arithmetic `divide` does on them stays
    below `max_num + 2`, which the model takes to fit in 64 bits. -/
structure PartIdSpace where
  maxNum : Nat
  toU64 : PartId → UInt64
  tryFrom : UInt64 → Option PartId
  one_le_maxNum : 1 ≤ maxNum
  tryFrom_toU64 : ∀ p : PartId, 1 ≤ p.num → p.num ≤ maxNum → tryFrom (toU64 p) = some p

/-- `Sequence { v: Vec<f64> }`, each `f64` kept as its IEEE-754 bit pattern. -/
structure Sequence where
  v : List UInt64
  deriving DecidableEq, Repr

/-- `parts : HashMap<PartId, PartInfo>`. -/
abbrev PartMap := AList (fun _ : PartId => PartInfo)

/-- `SeqClassifier`: for each class, the min length of sequences in the class and the
    partition identifier, ordered by min length, increasing. -/
structure SeqClassifier where
  classes : List (Nat × PartId)
  deriving DecidableEq, Repr

/-- `SeqRepo<IO>`: the classifier, the I/O collaborator (of state type `σ`) and the map
    of partition records. -/
structure SeqRepo (σ : Type) where
  csf : SeqClassifier
  io : σ
  parts : PartMap

/-- `SeqRepo::new`: an empty classifier and an empty map. -/
def SeqRepo.new {σ : Type} (r : σ) : SeqRepo σ :=
  { csf := ⟨[]⟩, io := r, parts := ∅ }

/-- What `divide` reads of a `PartState<Sequence>`: `part_id()` and the elements of
    `elt_map()` in iteration order. -/
structure PartState where
  partId : PartId
  elts : List Sequence

/-- `PartState::num_avail`: the number of elements. -/
def PartState.numAvail (p : PartState) : Nat := p.elts.length

/-- `pippin::error::Error`, as this code produces or passes it on. -/
inductive Error where
  /-- `OtherError::new(msg)` -/
  | other (msg : String)
  /-- an `io::Error` of kind `InvalidInput`, as `read_head`'s `invalid_input` builds -/
  | invalidInput (msg : String)
  /-- `io::ErrorKind::UnexpectedEof`, from a `byteorder` read past the end of a slice -/
  | unexpectedEof
  /-- `io::ErrorKind::WriteZero`, from `write_all` when a write takes no byte -/
  | writeZero
  /-- an error of an I/O collaborator, passed on unchanged -/
  | io (code : Nat)
  deriving DecidableEq, Repr

/-- `RepoDivideError`. -/
inductive DivideError where
  | notSubdivisible
  | msg (text : String)
  deriving DecidableEq, Repr

/-- The I/O collaborator `init_first` calls, with state `σ`: `add_partition` and
    `make_partition_io`, each of which may fail; `P` is the partition handle the latter
    returns. -/
structure RepoIo (σ P : Type) where
  addPartition : σ → PartId → String → Except Error Unit × σ
  makePartitionIo : σ → PartId → Except Error P × σ

/-- The bytes of an ASCII string literal such as `b"SeqCSF01"`. -/
def ascii (s : String) : List UInt8 := s.toList.map (fun c => c.toNat.toUInt8)

/-- `u32::MAX`. -/
def u32Max : Nat := 4294967295

end Pippin
