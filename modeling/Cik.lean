import Cik.Library.ByteMemory
import Cik.Library.ByteOrder
import Cik.Library.Probing
import Cik.Library.SearchTree
import Cik.Library.LinkedTree
import Cik.Library.LinkedList
import Cik.Library.Runs
import Cik.Library.Threads
import Cik.Library.Histories
import Cik.Library.Programs
import Cik.Library.Contracts
import Cik.Library.Completion
import Cik.Library.Records
import Cik.Source.Types
import Cik.Source.Util
import Cik.Source.Stream
import Cik.Source.Entry
import Cik.Source.Tag
import Cik.Source.Memory
import Cik.Source.Controller
import Cik.Source.Server
import Cik.Source.Persistence
import Cik.Source.Scarcity
import Cik.Source.KeyLists
import Cik.Source.Log
import Cik.Source.Config
import Cik.Source.TagWalk
import Cik.Theory.Placement
import Cik.Theory.Store
import Cik.Theory.Frames
import Cik.Theory.Listing
import Cik.Theory.Handling
import Cik.Theory.KeyMap
import Cik.Theory.Soundness
import Cik.Theory.TagIndex
import Cik.Theory.Replies
import Cik.Theory.Clearing
import Cik.Theory.Duplicates
import Cik.Theory.ListedKeys
import Cik.Theory.DelAndSet
import Cik.Theory.OneKey
import Cik.Theory.Framing
import Cik.Theory.Reading
import Cik.Theory.Independence
import Cik.Theory.InStep
import Cik.Theory.LivePayload
import Cik.Theory.Fragments
import Cik.Theory.LoggedTags
import Cik.Theory.Configuration
import Cik.Theory.Reversal
import Cik.Theory.Sizes
import Cik.Theory.Restart
import Cik.Theory.TornFile
import Cik.Theory.Acknowledged
import Cik.Theory.StartUp
import Cik.Theory.TagMap
import Cik.Theory.TagQueries
import Cik.Theory.Traversal
import Cik.Theory.Allocation
import Cik.Theory.Statistics
import Cik.Theory.Refusal
import Cik.Theory.Expiry
import Cik.Interleaving.FreeList
import Cik.Interleaving.TagNodes
import Cik.Interleaving.LogQueue
import Cik.Interleaving.Clients
import Cik.Interleaving.Operations
import Cik.Interleaving.Maps
import Cik.Interleaving.Handlers
import Cik.Interleaving.Holding
import Cik.Interleaving.Conduct
import Cik.Interleaving.Ownership
import Cik.Interleaving.Fulfilment
import Cik.Interleaving.Safety
import Cik.Interleaving.Blocks
import Cik.Interleaving.Failure
import Cik.Interleaving.Layout
import Cik.Interleaving.Indexing
import Cik.Interleaving.Searching
import Cik.Interleaving.Serving
import Cik.Interleaving.Serial
import Cik.Interleaving.Beliefs
import Cik.Interleaving.Indexed
import Cik.Interleaving.Informed
import Cik.Interleaving.Coherence
import Cik.Interleaving.Provenance
import Cik.Interleaving.Quiescence
import Cik.Interleaving.Shutdown
