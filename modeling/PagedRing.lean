import PagedRing.Bytes
import PagedRing.Delivery
import PagedRing.Drain.Concurrent
import PagedRing.Drain.Sequential
import PagedRing.Geometry
import PagedRing.Journal
import PagedRing.Lines
import PagedRing.Plan
import PagedRing.Ring
import PagedRing.Scratch
import PagedRing.Session.Answer
import PagedRing.Session.Exchange
import PagedRing.Session.Frame
import PagedRing.Session.Plain
import PagedRing.Session.Play
import PagedRing.Session.State
import PagedRing.Session.Step
import PagedRing.Source
import PagedRing.Span
import PagedRing.Transfer
import PagedRing.Word
import PagedRing.Proofs.History
import PagedRing.Proofs.Course
import PagedRing.Proofs.Lawful
import PagedRing.Proofs.Orderly
import PagedRing.Proofs.Underway
import PagedRing.Proofs.Conduct
import PagedRing.Proofs.Transfers
import PagedRing.Proofs.Runs
import PagedRing.Proofs.Chain
import PagedRing.Proofs.Stream
import PagedRing.Proofs.ExactlyOnce
import PagedRing.Proofs.Retry
import PagedRing.Proofs.Idle
import PagedRing.Proofs.Agreement
import PagedRing.Proofs.Guards
import PagedRing.Proofs.Resumption
import PagedRing.Proofs.Reassembly
import PagedRing.Proofs.Coverage
import PagedRing.Proofs.Account
import PagedRing.Proofs.Completion
import PagedRing.Proofs.Scratches
import PagedRing.Proofs.Handling
import PagedRing.Proofs.Cutting
import PagedRing.Proofs.Prompting
import PagedRing.Proofs.Contention
import PagedRing.Proofs.Ample
import PagedRing.Proofs.Distances
import PagedRing.Proofs.Counting
import PagedRing.Proofs.Recording
import PagedRing.Proofs.Tales
import PagedRing.Proofs.Logging
