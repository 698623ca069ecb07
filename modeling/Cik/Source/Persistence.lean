import Cik.Source.Server

/-!
# Keeping the entries over a restart

`main.c`: at shutdown every entry that has not expired is written to a file as the
SET request that makes it, in the order of the maps and slots, and at start-up the
file is read as a client's requests are. The file is given as its bytes; writes to it
are taken to succeed.
-/

namespace Cik

/-- `reverse_bytes` on a string of its own. -/
def reverseInPlace (bs : List UInt8) : List UInt8 :=
  (reverseBytes (ByteMemory.write (fun _ => 0) 0 bs) 0 (UInt32.ofNat bs.length)).read 0 bs.length

/-- The `ttl` of the request that `write_entry_as_set_request_callback` writes: `none`
when it writes none. -/
def requestTtl (now : Time) (entry : CacheEntry) : Option UInt32 :=
  if entry.expires ≠ CACHE_EXPIRES_INIT then
    if entry.expires < now then none else some (toU32 (entry.expires - now))
  else some 0xFFFFFFFF

/-- The header that `write_entry_as_set_request_callback` writes. -/
def entryHeader (entry : CacheEntry) (ttl : UInt32) : List UInt8 :=
  [CONTROL_BYTE_1, CONTROL_BYTE_2, CONTROL_BYTE_3, CMD_BYTE_SET, UInt8.ofNat entry.key.length,
    UInt8.ofNat entry.tags.length, SET_FLAG_NONE, 0] ++
    store32 (htonl (UInt32.ofNat entry.value.length)) ++ store32 (htonl ttl)

/-- A tag, as `write_entry_as_set_request_callback` writes it. -/
def writtenTag (tag : CacheTag) : List UInt8 := UInt8.ofNat tag.length :: reverseInPlace tag

/-- `write_entry_as_set_request_callback`. -/
def writeEntryAsSetRequestCallback (now : Time) (entry : CacheEntry) (file : List UInt8) :
    Bool × List UInt8 :=
  match requestTtl now entry with
  | none => (false, file)
  | some ttl =>
    (true, file ++ entryHeader entry ttl ++ reverseInPlace entry.key ++
      entry.tags.flatMap writtenTag ++ entry.value)

/-- What a walk over the entries has written. -/
def fileWritten (walked : (Fin NUM_CACHE_ENTRY_MAPS → CacheEntryHashMap) × List UInt8) :
    List UInt8 := walked.2

/-- The file that `main` writes at shutdown. -/
def dump (now : Time) (s : Store) : List UInt8 :=
  fileWritten (walkAllEntries (writeEntryAsSetRequestCallback now) s.maps [])

end Cik
