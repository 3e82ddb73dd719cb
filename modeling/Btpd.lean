import Btpd.Benc.Agreement
import Btpd.Metainfo.Extraction
import Btpd.Input.Bounds
import Btpd.Download.Interest
import Btpd.Download.Announcements
import Btpd.Download.Choking
import Btpd.Download.Counts
import Btpd.Download.Serving
import Btpd.Download.Uploaded
import Btpd.Swarm.Overflow
import Btpd.Swarm.Lost
import Btpd.Torrents.Runs
import Btpd.Upload.Runs
import Btpd.Content.Queue
import Btpd.Content.Unstored
import Btpd.Evloop.Schedule
import Btpd.Evloop.Dispatch
import Btpd.Evloop.Batches
import Btpd.Bandwidth.Limits
import Btpd.Hashtable.Map
import Btpd.Tracker.Rounds
import Btpd.Totals.Runs
import Btpd.Totals.Views
import Btpd.Http.Body
import Btpd.Http.Delivery
import Btpd.Info.Survival
import Btpd.Benc.Encoding
import Btpd.Wire.RoundTrip
import Btpd.Wire.Queued
import Btpd.Active.History
import Btpd.Content.Machine
import Btpd.Content.Accepted
import Btpd.Ipc.Queries
import Btpd.Subr.Memfind
import Btpd.Subr.Normalisation
import Btpd.Http.UrlForms
import Btpd.Bandwidth.Rates
import Btpd.Download.Rarest
import Btpd.Tracker.Contacts
import Btpd.Tracker.Completion
import Btpd.Http.HeadSafety
import Btpd.Http.Rbuf
import Btpd.Download.Offers
import Btpd.Download.Told
import Btpd.Download.Backlog
import Btpd.Download.Naming
import Btpd.Download.Attempts
import Btpd.Download.Blame
import Btpd.Download.Bans
import Btpd.Download.Integrity
import Btpd.Download.Honesty
import Btpd.Names.State
import Btpd.Names.Invariant
import Btpd.Names.Steps
import Btpd.Names.Connections
import Btpd.Names.Callbacks
import Btpd.Names.Tidy
import Btpd.Names.Threads
import Btpd.Names.Progress
import Btpd.Resume.Reopen
import Btpd.Ipc.Codes
