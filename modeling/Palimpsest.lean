import Palimpsest.Disk
import Palimpsest.Main
import Palimpsest.Query.Formula
import Palimpsest.Diagnostic.Sink
import Palimpsest.Proofs.Reach
import Palimpsest.Proofs.Query.Run
import Palimpsest.Proofs.Query.Sound
import Palimpsest.Proofs.Query.Underway
import Palimpsest.Proofs.Query.Cycle
import Palimpsest.Proofs.Query.Refresh
import Palimpsest.Proofs.Query.History
import Palimpsest.Proofs.Query.SweepExact
import Palimpsest.Proofs.Query.Sparing
import Palimpsest.Proofs.Forest.Arena
import Palimpsest.Proofs.Forest.Handles
import Palimpsest.Proofs.Node.Kind
import Palimpsest.Proofs.Node.Children
import Palimpsest.Proofs.Node.Walk
import Palimpsest.Proofs.Node.Keyed
import Palimpsest.Proofs.Forest.Coherent
import Palimpsest.Proofs.Forest.Collect
import Palimpsest.Proofs.Draft
import Palimpsest.Proofs.Draft.Transcribed
import Palimpsest.Proofs.Reconcile
import Palimpsest.Proofs.Forest.Acyclic
import Palimpsest.Proofs.Reconcile.Disjoint
import Palimpsest.Proofs.Reconcile.Positional
import Palimpsest.Proofs.Reconcile.Symbols
import Palimpsest.Proofs.Session.World
import Palimpsest.Proofs.Session.Answer
import Palimpsest.Proofs.Session.Act
import Palimpsest.Proofs.Session.Pins
import Palimpsest.Proofs.Session.Sound
import Palimpsest.Proofs.Session.Collect
import Palimpsest.Proofs.Session.Run
import Palimpsest.Proofs.Session.Invariant
import Palimpsest.Proofs.Session.Collection
import Palimpsest.Proofs.Hash.Bytes
import Palimpsest.Proofs.Content
import Palimpsest.Proofs.Session.Current
import Palimpsest.Proofs.Session.FromScratch
import Palimpsest.Proofs.Session.Lasting
import Palimpsest.Proofs.Session.Layout
import Palimpsest.Proofs.Draft.Names
import Palimpsest.Proofs.Surface.Accepted
import Palimpsest.Proofs.Surface.Names
import Palimpsest.Proofs.Text.Size
import Palimpsest.Proofs.Text.Words
import Palimpsest.Proofs.Token.Stream
import Palimpsest.Proofs.Surface.Spans
import Palimpsest.Proofs.Surface.Local
import Palimpsest.Proofs.Query.Commute
import Palimpsest.Proofs.Surface.Printed
import Palimpsest.Proofs.Session.Failure
import Palimpsest.Proofs.Query.Grounded
import Palimpsest.Proofs.Fingerprint
import Palimpsest.Proofs.Surface.Neighbours
import Palimpsest.Proofs.Surface.Nesting
import Palimpsest.Proofs.Surface.Comments
import Palimpsest.Proofs.Surface.Escapes
import Palimpsest.Proofs.Diagnostic.Underline
import Palimpsest.Proofs.Surface.Foreign
import Palimpsest.Proofs.Surface.Numerals
