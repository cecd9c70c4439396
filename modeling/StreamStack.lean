import StreamStack.Metadata.Canonical
import StreamStack.Metadata.Ownership
import StreamStack.Metadata.Placement
import StreamStack.Metadata.Query
import StreamStack.Sql.Agreement
import StreamStack.Storage.Plane
import StreamStack.Stream.Confirm
import StreamStack.Stream.Trim
import StreamStack.Wal.Framing
import StreamStack.Wal.Retained
import StreamStack.Wal.Epochs
import StreamStack.Object.RoundTrip
import StreamStack.Compact.Groups
import StreamStack.Compact.Sanity
import StreamStack.Service.Reopen
import StreamStack.Service.Session
import StreamStack.Service.Expiry
import StreamStack.Service.Named
import StreamStack.Service.Coherence
import StreamStack.Service.Linear
import StreamStack.Service.Waiters
import StreamStack.Service.EntryCodec
import StreamStack.Frontend.PicoRead
import StreamStack.Metadata.Retry
