import Cik.Library.ByteOrder
import Cik.Library.ByteMemory
import Mathlib.Algebra.Group.Int.Defs
import Mathlib.Algebra.GroupWithZero.Nat

/-!
# Types

The constants of `config.h` and the types of `types.h`, as far as the modelled
functions use them. A key, a tag and a value are strings of bytes. The hash map,
the tag tree and the allocator have modules of their own.
-/

namespace Cik

open ByteOrder

/-! ### Configuration -/

/-- The size of the smallest bucket. -/
def MIN_BUCKET_SIZE : ℕ := 0x100

/-- The size of the biggest bucket. -/
def MAX_BUCKET_SIZE : ℕ := 0x800000

/-- The bytes mapped at start-up. -/
def MAX_TOTAL_MEMORY : ℕ := 0xFFFFFFFF

/-- How many hash maps there are. -/
def NUM_CACHE_ENTRY_MAPS : ℕ := 6421

/-- How many slots a hash map has. -/
def CACHE_ENTRY_MAP_SIZE : ℕ := 797

instance : NeZero NUM_CACHE_ENTRY_MAPS := ⟨by decide⟩

instance : NeZero CACHE_ENTRY_MAP_SIZE := ⟨by decide⟩

/-! ### Keys, tags, entries -/

/-- A key, in the byte order it is stored in. -/
abbrev CacheKey := List UInt8

/-- A tag, in the byte order it is stored in. -/
abbrev CacheTag := List UInt8

/-- A value. -/
abbrev CacheValue := List UInt8

instance : LawfulBEq CacheKey := List.instLawfulBEq

/-- `time_t`. -/
abbrev Time := ℤ

/-- The expiry time of an entry that never expires. -/
def CACHE_EXPIRES_INIT : Time := -1

/-- A cache entry. -/
structure CacheEntry where
  /-- The key. -/
  key : CacheKey
  /-- The tags. -/
  tags : List CacheTag
  /-- The value. -/
  value : CacheValue
  /-- When the entry was made. -/
  mtime : Time
  /-- When it expires. -/
  expires : Time
  /-- How often it was got. -/
  nhits : UInt32
  deriving DecidableEq

/-- A part of a buffer: where it begins and how long it is. -/
structure Slice where
  /-- The address of the first byte. -/
  base : ℕ
  /-- How many bytes. -/
  nmemb : ℕ

/-- The bytes of a slice. -/
def Slice.bytes (s : Slice) (m : ByteMemory) : List UInt8 := m.read s.base s.nmemb

/-- A worker's payload buffer: the bytes at its base, how many are in use, and how
many there are. -/
structure Payload where
  /-- The bytes at `base`. -/
  base : ByteMemory
  /-- How many are in use. -/
  nmemb : ℕ
  /-- How many there are. -/
  cap : ℕ

/-! ### Status codes -/

/-- The outcome of a request. -/
inductive StatusCode where
  /-- `STATUS_OK`. -/
  | ok
  /-- `STATUS_BUG`. -/
  | bug
  /-- `STATUS_CONNECTION_CLOSED`. -/
  | connectionClosed
  /-- `STATUS_NETWORK_ERROR`. -/
  | networkError
  /-- `STATUS_PROTOCOL_ERROR`. -/
  | protocolError
  /-- `STATUS_NOT_FOUND`. -/
  | notFound
  /-- `STATUS_EXPIRED`. -/
  | expired
  /-- `STATUS_OUT_OF_MEMORY`. -/
  | outOfMemory
  deriving DecidableEq

/-- Errors that close the connection. -/
def MASK_INTERNAL_ERROR : UInt32 := 0x10

/-- Errors that generate a failure response. -/
def MASK_CLIENT_ERROR : UInt32 := 0x20

/-- Non-errors that generate a failure response. -/
def MASK_CLIENT_MESSAGE : UInt32 := 0x40

/-- The number of a status. -/
def StatusCode.code : StatusCode → UInt32
  | .ok => 0x00
  | .bug => 0x11
  | .connectionClosed => 0x12
  | .networkError => 0x13
  | .protocolError => 0x21
  | .notFound => 0x41
  | .expired => 0x42
  | .outOfMemory => 0x43

/-- `status & mask`. -/
def StatusCode.has (status : StatusCode) (mask : UInt32) : Bool := status.code &&& mask != 0

/-! ### Protocol -/

/-- `'C'`. -/
def CONTROL_BYTE_1 : UInt8 := 0x43

/-- `'i'`. -/
def CONTROL_BYTE_2 : UInt8 := 0x69

/-- `'K'`. -/
def CONTROL_BYTE_3 : UInt8 := 0x4B

/-- `'g'`. -/
def CMD_BYTE_GET : UInt8 := 0x67

/-- `'s'`. -/
def CMD_BYTE_SET : UInt8 := 0x73

/-- `'d'`. -/
def CMD_BYTE_DEL : UInt8 := 0x64

/-- `'c'`. -/
def CMD_BYTE_CLR : UInt8 := 0x63

/-- `'l'`. -/
def CMD_BYTE_LST : UInt8 := 0x6C

/-- `'n'`. -/
def CMD_BYTE_NFO : UInt8 := 0x6E

/-- `'t'`. -/
def SUCCESS_BYTE : UInt8 := 0x74

/-- `'f'`. -/
def FAILURE_BYTE : UInt8 := 0x66

/-- The flag of a GET that reads an expired entry too. -/
def GET_FLAG_IGNORE_EXPIRES : UInt8 := 0x01

/-- No flag of a SET. -/
def SET_FLAG_NONE : UInt8 := 0x00

/-- The flag of a SET that only renews the expiry time. -/
def SET_FLAG_ONLY_TTL : UInt8 := 0x01

/-- A CLR of all entries. -/
def CLEAR_MODE_ALL : UInt8 := 0x00

/-- Of those that have expired. -/
def CLEAR_MODE_OLD : UInt8 := 0x01

/-- Of those with all of the tags. -/
def CLEAR_MODE_MATCH_ALL : UInt8 := 0x02

/-- Of those with none of the tags. -/
def CLEAR_MODE_MATCH_NONE : UInt8 := 0x03

/-- Of those with one of the tags. -/
def CLEAR_MODE_MATCH_ANY : UInt8 := 0x04

/-- A LST of all keys. -/
def LIST_MODE_ALL_KEYS : UInt8 := 0x00

/-- Of all tags. -/
def LIST_MODE_ALL_TAGS : UInt8 := 0x01

/-- Of the keys with all of the tags. -/
def LIST_MODE_MATCH_ALL : UInt8 := 0x02

/-- Of those with none of the tags. -/
def LIST_MODE_MATCH_NONE : UInt8 := 0x03

/-- Of those with one of the tags. -/
def LIST_MODE_MATCH_ANY : UInt8 := 0x04

/-- `htonl` on a little-endian machine. -/
def htonl (x : UInt32) : UInt32 := UInt32.ofNat (swapBytes 4 x.toNat)

/-- `ntohl` on a little-endian machine. -/
def ntohl (x : UInt32) : UInt32 := UInt32.ofNat (swapBytes 4 x.toNat)

/-- A `u32` in memory. -/
def store32 (x : UInt32) : List UInt8 := leBytes 4 x.toNat

instance instNeZeroHeader : NeZero 16 := ⟨by decide⟩

/-- The header of a request: sixteen bytes. -/
structure Request where
  /-- The bytes. -/
  bytes : Fin 16 → UInt8

namespace Request

/-- The header read from sixteen bytes. -/
def ofBytes (bs : List UInt8) : Request := ⟨fun i => bs.getD i 0⟩

/-- The operation. -/
def op (r : Request) : UInt8 := r.bytes 3

/-- The key length of a GET. -/
def gKlen (r : Request) : UInt8 := r.bytes 4

/-- The flags of a GET. -/
def gFlags (r : Request) : UInt8 := r.bytes 5

/-- The key length of a SET. -/
def sKlen (r : Request) : UInt8 := r.bytes 4

/-- The tag count of a SET. -/
def sNtags (r : Request) : UInt8 := r.bytes 5

/-- The flags of a SET. -/
def sFlags (r : Request) : UInt8 := r.bytes 6

/-- The value length of a SET, as it lies in memory. -/
def sVlen (r : Request) : UInt32 :=
  UInt32.ofNat (leNat [r.bytes 8, r.bytes 9, r.bytes 10, r.bytes 11])

/-- The TTL of a SET, as it lies in memory. -/
def sTtl (r : Request) : UInt32 :=
  UInt32.ofNat (leNat [r.bytes 12, r.bytes 13, r.bytes 14, r.bytes 15])

/-- The key length of a DEL. -/
def dKlen (r : Request) : UInt8 := r.bytes 4

/-- The mode of a CLR; a LST's lies at the same place. -/
def cMode (r : Request) : UInt8 := r.bytes 4

/-- The tag count of a CLR; a LST's lies at the same place. -/
def cNtags (r : Request) : UInt8 := r.bytes 5

/-- The key length of an NFO. -/
def nKlen (r : Request) : UInt8 := r.bytes 4

end Request

/-- `MAKE_SUCCESS_RESPONSE`: the eight bytes of a success response. -/
def makeSuccessResponse (size : UInt32) : List UInt8 :=
  [CONTROL_BYTE_1, CONTROL_BYTE_2, CONTROL_BYTE_3, SUCCESS_BYTE] ++ store32 (htonl size)

/-- `MAKE_FAILURE_RESPONSE`: the eight bytes of a failure response. -/
def makeFailureResponse (error : UInt32) : List UInt8 :=
  [CONTROL_BYTE_1, CONTROL_BYTE_2, CONTROL_BYTE_3, FAILURE_BYTE] ++ store32 (htonl error)

/-- The server's answer to an NFO without a key. -/
structure ServerInfo where
  /-- Bytes that entries can use. -/
  bytes_reserved : UInt32
  /-- Bytes in use. -/
  bytes_used : UInt32
  /-- Bytes released. -/
  bytes_free : UInt32
  /-- Bytes used again after they were released. -/
  bytes_reused : UInt32

/-! ### Facts -/

@[simp] theorem length_store32 (x : UInt32) : (store32 x).length = 4 := length_leBytes 4 _

@[simp] theorem length_makeSuccessResponse (x : UInt32) : (makeSuccessResponse x).length = 8 := by
  simp [makeSuccessResponse]

@[simp] theorem length_makeFailureResponse (x : UInt32) : (makeFailureResponse x).length = 8 := by
  simp [makeFailureResponse]

/-- The statuses that close the connection. -/
theorem StatusCode.has_internal_iff (status : StatusCode) :
    status.has MASK_INTERNAL_ERROR = true ↔
      status = .bug ∨ status = .connectionClosed ∨ status = .networkError := by
  cases status <;> decide

theorem ntohl_htonl (x : UInt32) : ntohl (htonl x) = x := by
  apply UInt32.toNat_inj.mp
  have hx : x.toNat < 256 ^ 4 := x.toNat_lt
  have hs := swapBytes_lt 4 x.toNat
  have hn : (htonl x).toNat = swapBytes 4 x.toNat := by
    rw [htonl, UInt32.toNat_ofNat']
    exact Nat.mod_eq_of_lt hs
  rw [ntohl, UInt32.toNat_ofNat', hn, swapBytes_swapBytes hx]
  exact Nat.mod_eq_of_lt hx

end Cik
