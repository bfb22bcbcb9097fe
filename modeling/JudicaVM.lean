import JudicaVM.Attest.ArrivalClaims
import JudicaVM.Attest.DlogExtractor
import JudicaVM.Attest.KeyBytes
import JudicaVM.Attest.Retrying
import JudicaVM.Attest.Writers
import JudicaVM.Attest.PeerInput
import JudicaVM.Board.Lookups
import JudicaVM.Board.Minority
import JudicaVM.Board.Queries
import JudicaVM.Board.Registries
import JudicaVM.Board.Schedule
import JudicaVM.Board.Solvency
import JudicaVM.Board.TradeSafety
import JudicaVM.Contract.Replay
import JudicaVM.Contract.EventLog
import JudicaVM.Contract.EventLoop
import JudicaVM.Contract.Snapshot
import JudicaVM.Contract.Quorum
import JudicaVM.Contract.Emission
import JudicaVM.Contract.Recovery
import JudicaVM.Host.Replication
import JudicaVM.Host.Restart
import JudicaVM.Host.Starvation
import JudicaVM.Host.Finishing
import JudicaVM.Sequencer.Trace
import JudicaVM.Sequencer.Polling
import JudicaVM.Sequencer.Stall
import JudicaVM.Sequencer.Consumers
import JudicaVM.Board.Exhaustion
import JudicaVM.Board.Bills
import JudicaVM.Board.Delivery
import JudicaVM.Attest.Strings
import JudicaVM.Attest.Signing
import JudicaVM.Ux.Handles
import JudicaVM.Attest.Push
import JudicaVM.Peer.Session
import JudicaVM.Peer.Connections
import JudicaVM.Peer.Crossing
import JudicaVM.Peer.Fetching
import JudicaVM.Peer.Serving
import JudicaVM.Peer.Cookies
import JudicaVM.Peer.Services
import JudicaVM.Peer.Learning
import JudicaVM.Board.Shares
import JudicaVM.Board.Founding
import JudicaVM.Board.Mining
import JudicaVM.Board.Hashrate
