import SlotTree.Cursor
import SlotTree.Event
import SlotTree.Fault
import SlotTree.Interval
import SlotTree.Node
import SlotTree.Proofs.Answers
import SlotTree.Proofs.Audit
import SlotTree.Proofs.Bounds
import SlotTree.Proofs.Changes
import SlotTree.Proofs.Confined
import SlotTree.Proofs.Dictionary
import SlotTree.Proofs.Editing
import SlotTree.Proofs.Frame
import SlotTree.Proofs.Gap
import SlotTree.Proofs.Height
import SlotTree.Proofs.HighWater
import SlotTree.Proofs.Insertion
import SlotTree.Proofs.Intact
import SlotTree.Proofs.Layout
import SlotTree.Proofs.Ledger
import SlotTree.Proofs.Linked
import SlotTree.Proofs.Measures
import SlotTree.Proofs.Meeting
import SlotTree.Proofs.MendBlack
import SlotTree.Proofs.MendRed
import SlotTree.Proofs.Mirror
import SlotTree.Proofs.MirrorBalance
import SlotTree.Proofs.MirrorEdits
import SlotTree.Proofs.Missed
import SlotTree.Proofs.Narrowing
import SlotTree.Proofs.Nearby
import SlotTree.Proofs.Noticing
import SlotTree.Proofs.Order
import SlotTree.Proofs.Outline
import SlotTree.Proofs.Places
import SlotTree.Proofs.Placing
import SlotTree.Proofs.Pool
import SlotTree.Proofs.Reach
import SlotTree.Proofs.RedBlack
import SlotTree.Proofs.Removal
import SlotTree.Proofs.Roaming
import SlotTree.Proofs.Room
import SlotTree.Proofs.Rotation
import SlotTree.Proofs.Safety
import SlotTree.Proofs.Search
import SlotTree.Proofs.Shape
import SlotTree.Proofs.Slots
import SlotTree.Proofs.Sound
import SlotTree.Proofs.Staleness
import SlotTree.Proofs.Stretch
import SlotTree.Proofs.Traversal
import SlotTree.Proofs.Verdict
import SlotTree.Proofs.Visiting
import SlotTree.Proofs.Walk
import SlotTree.Proofs.Walking
import SlotTree.Proofs.Weeding
import SlotTree.Proofs.Windows
import SlotTree.Refusal
import SlotTree.Session
import SlotTree.Session.CursorOp
import SlotTree.Session.Key
import SlotTree.Session.KeyOrder
import SlotTree.Session.Plan
import SlotTree.Session.Reply
import SlotTree.Session.Selector
import SlotTree.Session.SlotsOp
import SlotTree.Session.Surgery
import SlotTree.Session.TreeOp
import SlotTree.Session.WindowOp
import SlotTree.Slots
import SlotTree.Tree.Audit
import SlotTree.Tree.Balance
import SlotTree.Tree.Basic
import SlotTree.Tree.Erase
import SlotTree.Tree.Insert
import SlotTree.Tree.Search
import SlotTree.Tree.Traversal
import SlotTree.Tree.Walk
import SlotTree.Window
import SlotTree.Written
import SlotTree.Proofs.Sequence
import SlotTree.Proofs.Turning
import SlotTree.Proofs.RedEdge
import SlotTree.Proofs.Shortfall
import SlotTree.Proofs.LinkCheck
import SlotTree.Proofs.Scarcity
