import Cik.Source.Types

/-!
# Entries of the log

What `log.c` writes about a CLR or a LST of the entries that match some tags. The
worker puts the tags into the `data` of an entry, each with its length before it, as
many as there is room for (`log_request_with_tags`). The thread that prints the log
reads them back, until it finds a length of zero (`print_log_entry`). The writer counts
in a `u8`, and the reader's pointer is not compared with the end of the array. The other
types of entries have no tags; the queue between the two is modelled elsewhere.
-/

namespace Cik

/-- `LogEntryType`: the types that have tags. -/
inductive LogEntryType where
  /-- `LOG_TYPE_REQUEST_CLR_MATCH_NONE`. -/
  | clrMatchNone
  /-- `LOG_TYPE_REQUEST_CLR_MATCH_ALL`. -/
  | clrMatchAll
  /-- `LOG_TYPE_REQUEST_CLR_MATCH_ANY`. -/
  | clrMatchAny
  /-- `LOG_TYPE_REQUEST_LST_MATCH_NONE`. -/
  | lstMatchNone
  /-- `LOG_TYPE_REQUEST_LST_MATCH_ALL`. -/
  | lstMatchAll
  /-- `LOG_TYPE_REQUEST_LST_MATCH_ANY`. -/
  | lstMatchAny
  deriving DecidableEq

/-- `ARRAY_COUNT (entry.data)`. -/
def LOG_DATA_SIZE : ℕ := 0x100

/-- `LogEntry`. -/
structure LogEntry where
  /-- What it is about. -/
  type : LogEntryType
  /-- The worker that wrote it. -/
  worker_id : UInt32
  /-- The address of the client. -/
  client_ip : UInt32
  /-- The port of the client. -/
  client_port : UInt16
  /-- The array, from index 0 on. -/
  data : ByteMemory

/-- The loop of `log_request_with_tags`: the array, and `nmemb`. -/
def logTagsLoop : List CacheTag → ByteMemory → UInt8 → ByteMemory × UInt8
  | [], data, nmemb => (data, nmemb)
  | tag :: tags, data, nmemb =>
    if nmemb.toNat + 1 + tag.length > LOG_DATA_SIZE then (data, nmemb)
    else
      let data := data.write nmemb.toNat [UInt8.ofNat tag.length]
      let nmemb := nmemb + 1
      let data := data.write nmemb.toNat tag
      logTagsLoop tags data (nmemb + UInt8.ofNat tag.length)

/-- `log_request_with_tags`: the entry that is put into the queue. -/
def logRequestWithTags (type : LogEntryType) (worker_id client_ip : UInt32) (client_port : UInt16)
    (tags : List CacheTag) : LogEntry :=
  ⟨type, worker_id, client_ip, client_port, (logTagsLoop tags (fun _ => 0) 0).1⟩

/-- The loop of `print_log_entry` over the tags: `none` when it looks behind the array. A round
reads the bytes of a tag, for `tag2str`, and the length of the next one. -/
def printTagsLoop (data : ByteMemory) (base : ℕ) (nmemb : UInt8) : Option (List CacheTag) :=
  if nmemb = 0 then some []
  else if base + nmemb.toNat < LOG_DATA_SIZE then
    (printTagsLoop data (base + nmemb.toNat + 1) (data (base + nmemb.toNat))).map
      (data.read base nmemb.toNat :: ·)
  else none
termination_by LOG_DATA_SIZE - base

/-- What `print_log_entry` prints of such an entry: the word behind `MATCH`, and the tags. -/
def printLogEntry (e : LogEntry) : Option (String × List CacheTag) :=
  let is_all := e.type = .clrMatchAll ∨ e.type = .lstMatchAll
  let is_any := e.type = .clrMatchAny ∨ e.type = .lstMatchAny
  (printTagsLoop e.data 1 (e.data 0)).map fun tags =>
    (if is_all then "ALL" else if is_any then "ANY" else "NONE", tags)

end Cik
