import LiveOrder.Bulk
import LiveOrder.Store.Session
import LiveOrder.Token.Table
import LiveOrder.Proofs.Store.Balance
import LiveOrder.Proofs.Store.Freeing
import LiveOrder.Proofs.Store.Linking
import LiveOrder.Proofs.Store.Clearing
import LiveOrder.Proofs.Store.Stepping
import LiveOrder.Proofs.Store.Rows
import LiveOrder.Proofs.Store.Change
import LiveOrder.Proofs.Store.Index
import LiveOrder.Proofs.Tour.Basic
import LiveOrder.Proofs.Tour.Refinement
import LiveOrder.Proofs.Tour.Shape
import LiveOrder.Proofs.Store.Dates
import LiveOrder.Proofs.Tour.Retention
import LiveOrder.Proofs.Tour.Clearing
import LiveOrder.Proofs.Store.Session
import LiveOrder.Proofs.Store.Contents
import LiveOrder.Proofs.World.Passages
import LiveOrder.Proofs.World.Reactions
import LiveOrder.Proofs.Conservation
import LiveOrder.Proofs.World.Uses
import LiveOrder.Proofs.World.Refusals
import LiveOrder.Proofs.World.Atomicity
import LiveOrder.Proofs.World.Released
import LiveOrder.Proofs.World.Rejected
import LiveOrder.Proofs.World.Interrupted
import LiveOrder.Proofs.World.Holders
import LiveOrder.Proofs.Scripts.Run
import LiveOrder.Proofs.Rounds.Run
import LiveOrder.Proofs.Tour.Handles
import LiveOrder.Proofs.Identity
import LiveOrder.Proofs.World.Filling
import LiveOrder.Proofs.World.StoredKeys
import LiveOrder.Proofs.Tour.Turns
import LiveOrder.Proofs.Tour.Reports
import LiveOrder.Proofs.Tour.Independence
import LiveOrder.Proofs.Tour.Loops
