import ProxyLease.Courier.Step
import ProxyLease.Probe.Checkup
import ProxyLease.Proofs.Agreement
import ProxyLease.Proofs.Capacity
import ProxyLease.Proofs.Ceiling
import ProxyLease.Proofs.Courier.Abandoned
import ProxyLease.Proofs.Courier.Accounting
import ProxyLease.Proofs.Decline
import ProxyLease.Proofs.Endpoint.RoundTrip
import ProxyLease.Proofs.Endpoint.Usable
import ProxyLease.Proofs.Extinction
import ProxyLease.Proofs.History
import ProxyLease.Proofs.Lease.Ledger
import ProxyLease.Proofs.Line
import ProxyLease.Proofs.Pacing
import ProxyLease.Proofs.Probe.Checkup
import ProxyLease.Proofs.Probe.Client
import ProxyLease.Proofs.Probe.ClientCache
import ProxyLease.Proofs.Progress
import ProxyLease.Proofs.Queue
import ProxyLease.Proofs.Requests
import ProxyLease.Proofs.Restored
import ProxyLease.Proofs.Source.Limit
import ProxyLease.Proofs.Survey
import ProxyLease.Proofs.Threshold
import ProxyLease.Proofs.Upkeep
import ProxyLease.Proofs.Workforce
import ProxyLease.Proofs.World.Fate
import ProxyLease.Simulation.Bench
import ProxyLease.Simulation.Blueprint
import ProxyLease.Simulation.Counting
import ProxyLease.Simulation.Errand
import ProxyLease.Proofs.Rotation
import ProxyLease.Proofs.Wheel
import ProxyLease.Proofs.Bookkeeping
import ProxyLease.Proofs.Weight
