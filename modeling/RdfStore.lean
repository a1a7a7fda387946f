import RdfStore.Sha1
import RdfStore.Identity
import RdfStore.Atomicity
import RdfStore.Membership
import RdfStore.Bits
import RdfStore.Consistency
import RdfStore.Freetext
import RdfStore.SearchAnd
import RdfStore.CacheShape
import RdfStore.CacheCompressed
import RdfStore.CacheReads
import RdfStore.CacheUpdates
import RdfStore.Sflcomp
import RdfStore.SearchRanges
import RdfStore.SameDigest
import RdfStore.Dbms.Cursor
import RdfStore.Dbms.Requests
import RdfStore.Dbms.Comms
import RdfStore.StatementRecord
import RdfStore.CachedHashes
import RdfStore.FetchObject
import RdfStore.Description
import RdfStore.Dbms.Framing
import RdfStore.Dbms.Replies
import RdfStore.NTriples.Writer
import RdfStore.NTriples.Reader
import RdfStore.NTriples.RoundTrip
import RdfStore.NTriples.Documents
import RdfStore.NTriples.Chunks
import RdfStore.NTriples.Locality
import RdfStore.NTriples.Modes
import RdfStore.Rdql.Constraint
import RdfStore.Query.Constraints
import RdfStore.Query.Evaluation
import RdfStore.Query.Fetch
import RdfStore.Query.Rows
import RdfStore.Query.Modifiers
import RdfStore.Query.Matching
import RdfStore.Query.Answers
import RdfStore.Query.Components
import RdfStore.Query.Joins
import RdfStore.Query.Uris
import RdfStore.Query.JoinRows
import RdfStore.Query.Optionals
import RdfStore.Query.Inference
import RdfStore.Query.Closure
import RdfStore.Query.Ranges
import RdfStore.Query.Comparisons
import RdfStore.Query.Constrained
import RdfStore.Query.Pushdown
import RdfStore.Dbms.Levels
import RdfStore.Lib.Links
import RdfStore.Dbms.Config
import RdfStore.Dbms.Sections
import RdfStore.Dbms.Precedence
import RdfStore.Dbms.Client
import RdfStore.PackedCounters
import RdfStore.SchemaClosure
import RdfStore.Lib.Descent
import RdfStore.Rdql.Scans
import RdfStore.Rdql.Parser
import RdfStore.Rdql.Ending
import RdfStore.Query.Substitution
import RdfStore.Query.QuotedValues
import RdfStore.Lib.Emission
import RdfStore.SiRPAC.Elements
import RdfStore.SiRPAC.Processing
import RdfStore.SiRPAC.Regions
import RdfStore.SiRPAC.Subjects
import RdfStore.SiRPAC.Collections
import RdfStore.SiRPAC.CollectionSteps
import RdfStore.NodeEquality
import RdfStore.Dbms.RequestSizes
import RdfStore.Dbms.Handoff
import RdfStore.Iterators
import RdfStore.IteratorSets
import RdfStore.LiveIds
import RdfStore.IteratorRemoval
import RdfStore.RecordBuffer
import RdfStore.Dbms.DatabaseNames
import RdfStore.InsertRemove
import RdfStore.SiRPAC.CollectionStages
import RdfStore.SiRPAC.CollectionCounts
import RdfStore.SiRPAC.CollectionReturns
import RdfStore.SiRPAC.CollectionLists
import RdfStore.Lib.SavedValues
import RdfStore.SiRPAC.Handlers
import RdfStore.SiRPAC.StartTags
import RdfStore.SiRPAC.Nesting
import RdfStore.Utf8Table
import RdfStore.Utf8Text
import RdfStore.CaseFolding
import RdfStore.NTriples.Faithful
import RdfStore.Fraenkel
import RdfStore.MyCompress
import RdfStore.StatementEquality
import RdfStore.Rdql.Leaves
import RdfStore.Rdql.Operators
import RdfStore.Rdql.Compiled
import RdfStore.Rdql.Clauses
import RdfStore.Query.EvaluatedOnce
import RdfStore.Query.Conjunctions
import RdfStore.Lib.Enumeration
import RdfStore.Bitmaps
import RdfStore.MaskedBits
import RdfStore.IndexKeys
import RdfStore.Xsd.Numbers
import RdfStore.Lib.Gregorian
import RdfStore.Lib.Scanf
import RdfStore.Xsd.Calendar
import RdfStore.Xsd.Dates
import RdfStore.Xsd.Instants
import RdfStore.NTriples.BufferSize
import RdfStore.QNames
import RdfStore.Recordwise
import RdfStore.Lib.BackReferences
import RdfStore.BlockCodec
import RdfStore.RunCodecs
import RdfStore.SearchRuns
import RdfStore.DerivedModels
import RdfStore.Lib.BlockStream
import RdfStore.Sha1Stream
import RdfStore.Lib.Serial
import RdfStore.Dbms.Peers
import RdfStore.Dbms.TableCommands
import RdfStore.Lib.DigitOrder
import RdfStore.Xsd.Keys
import RdfStore.LastModified
import RdfStore.DateRanges
import RdfStore.IteratorMembers
import RdfStore.CopyOnWrite
