import ProxyLease.Courier.Basic
import ProxyLease.World.Step

/-!
# Steps of couriers

Couriers take their steps among those of the world they are in. While a courier
waits for a proxy, its request belongs to it: nobody else ends that request. The
deliveries of requests are left open.
-/

namespace ProxyLease

inductive CourierAction where
  /-- A step of the world that no courier takes. -/
  | world (action : Action)
  | send (parcel : Parcel)
  /-- The request of a courier for a proxy finds something in its inbox. -/
  | resume (courier : CourierId)
  /-- The request of a courier for a proxy has waited long enough. -/
  | expire (courier : CourierId)
  | depart (courier : CourierId)
  | arrive (courier : CourierId) (delivery : Delivery)
  | abandon (courier : CourierId)

namespace CourierWorld

/-- The request a courier waits for. -/
def call? (m : CourierWorld) (i : CourierId) : Option CallId :=
  match m.couriers[i]? with
  | some ⟨_, _, .waiting call⟩ => some call
  | _ => none

def owns (m : CourierWorld) (call : CallId) : Bool :=
  (List.range m.couriers.size).any fun i => m.call? i == some call

/-- Whether a step would end a request that belongs to a courier. -/
def interferes (m : CourierWorld) : Action → Bool
  | .resume call | .expire call | .cancel call | .abandon call => m.owns call
  | _ => false

/-- A step of the world on behalf of a courier that waits for it. -/
def settleCall (m : CourierWorld) (i : CourierId) (ending : CallId → Action) : CourierWorld :=
  match m.call? i with
  | some call => { m with world := m.world.perform (ending call) }.resume i
  | none => m

def Enabled (m : CourierWorld) : CourierAction → Bool
  | .world a => m.world.Enabled a && !m.interferes a
  | .send _ => true
  | .resume i => (m.call? i).any fun call => m.world.Enabled (.resume call)
  | .expire i => (m.call? i).any fun call => m.world.Enabled (.expire call)
  | .depart i =>
    match m.couriers[i]? with
    | some ⟨_, _, .pacing _ _⟩ => true
    | _ => false
  | .arrive i _ =>
    match m.couriers[i]? with
    | some ⟨_, _, .inFlight _ _⟩ => true
    | _ => false
  | .abandon i =>
    match m.couriers[i]? with
    | some ⟨_, _, .waiting _⟩ | some ⟨_, _, .pacing _ _⟩ | some ⟨_, _, .inFlight _ _⟩ => true
    | _ => false

def perform (m : CourierWorld) : CourierAction → CourierWorld
  | .world a => { m with world := m.world.perform a }
  | .send parcel => (m.send parcel).2
  | .resume i => m.settleCall i .resume
  | .expire i => m.settleCall i .expire
  | .depart i => m.depart i
  | .arrive i delivery => m.arrive i delivery
  | .abandon i => m.abandon i

def run? (m : CourierWorld) : List CourierAction → Option CourierWorld
  | [] => some m
  | a :: rest => if m.Enabled a then (m.perform a).run? rest else none

def Reaches (m v : CourierWorld) : Prop := ∃ actions, m.run? actions = some v

end CourierWorld
end ProxyLease
