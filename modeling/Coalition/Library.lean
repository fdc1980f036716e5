import Coalition.Model.Build
import Coalition.Model.Document

-- The models that come with the checker, as the texts of their documents.

set_option autoImplicit false

namespace Coalition

namespace Library

def cardGame : List String := [
  "name: cardgame",
  "description: >",
  "  The dealer deals two distinct cards among Ac, K and Q, one to the player",
  "  and one to himself. The player sees his own card only, then keeps it or",
  "  swaps it for the card left in the deck. Ac beats K, K beats Q and Q beats",
  "  Ac; the game then starts over.",
  "variables:",
  "  step: 0..2",
  "  pcard: [none, Ac, K, Q]",
  "  dcard: [none, Ac, K, Q]",
  "inputs:",
  "  dealer.action: [none, dealAK, dealAQ, dealKA, dealKQ, dealQA, dealQK]",
  "  player.action: [none, keep, swap]",
  "defines:",
  "  win: \"step = 2 & (pcard = Ac & dcard = K | pcard = K & dcard = Q | pcard = Q & dcard = Ac)\"",
  "  lose: \"step = 2 & ~win\"",
  "init:",
  "  - \"step = 0 & pcard = none & dcard = none\"",
  "trans:",
  "  - \"step = 0 -> next(step) = 1\"",
  "  - \"step = 1 -> next(step) = 2\"",
  "  - \"step = 2 -> next(step) = 0\"",
  "  - \"dealer.action = dealAK -> next(pcard) = Ac & next(dcard) = K\"",
  "  - \"dealer.action = dealAQ -> next(pcard) = Ac & next(dcard) = Q\"",
  "  - \"dealer.action = dealKA -> next(pcard) = K & next(dcard) = Ac\"",
  "  - \"dealer.action = dealKQ -> next(pcard) = K & next(dcard) = Q\"",
  "  - \"dealer.action = dealQA -> next(pcard) = Q & next(dcard) = Ac\"",
  "  - \"dealer.action = dealQK -> next(pcard) = Q & next(dcard) = K\"",
  "  - \"step = 1 -> next(dcard) = dcard\"",
  "  - \"player.action = keep -> next(pcard) = pcard\"",
  "  - \"player.action = swap & pcard = Ac & dcard = K -> next(pcard) = Q\"",
  "  - \"player.action = swap & pcard = Ac & dcard = Q -> next(pcard) = K\"",
  "  - \"player.action = swap & pcard = K & dcard = Ac -> next(pcard) = Q\"",
  "  - \"player.action = swap & pcard = K & dcard = Q -> next(pcard) = Ac\"",
  "  - \"player.action = swap & pcard = Q & dcard = Ac -> next(pcard) = K\"",
  "  - \"player.action = swap & pcard = Q & dcard = K -> next(pcard) = Ac\"",
  "  - \"step = 2 -> next(pcard) = none & next(dcard) = none\"",
  "agents:",
  "  - name: dealer",
  "    observes: [step, pcard, dcard]",
  "    actions: [dealer.action]",
  "    protocol:",
  "      - \"step = 0 <-> dealer.action != none\"",
  "  - name: player",
  "    observes: [step, pcard]",
  "    actions: [player.action]",
  "    protocol:",
  "      - \"step = 1 <-> player.action != none\"",
  "groups:",
  "  players: [dealer, player]",
  "specs:",
  "  - \"K<'player'> 'pcard=none' & K<'player'> 'dcard=none'\"",
  "  - \"AG('step = 1' -> ~(K<'player'> 'dcard=Ac' | K<'player'> 'dcard=K' | K<'player'> 'dcard=Q'))\"",
  "  - \"<'dealer'> X 'pcard=Ac'\"",
  "  - \"<'dealer'> G ~'win'\"",
  "  - \"['player'] X 'pcard=Ac'\"",
  "  - \"['dealer'] F 'win'\"",
  "  - \"AG('step = 1' -> ~<'player'> X 'win')\"",
  "  - \"<'player'> F 'win'\"",
  "  - \"EG ~'win'\"",
  "  - \"EF 'win'\"",
  "  - \"AF 'win'\""]

def freeChoice : List String := [
  "name: freechoice",
  "description: >",
  "  Two agents flip their own bit each step, independently of each other.",
  "variables:",
  "  a: boolean",
  "  b: boolean",
  "inputs:",
  "  alice.action: [keep, flip]",
  "  bob.action: [keep, flip]",
  "init:",
  "  - \"~a & ~b\"",
  "trans:",
  "  - \"alice.action = keep -> (next(a) <-> a)\"",
  "  - \"alice.action = flip -> (next(a) <-> ~a)\"",
  "  - \"bob.action = keep -> (next(b) <-> b)\"",
  "  - \"bob.action = flip -> (next(b) <-> ~b)\"",
  "agents:",
  "  - name: alice",
  "    observes: [a]",
  "    actions: [alice.action]",
  "  - name: bob",
  "    observes: [b]",
  "    actions: [bob.action]",
  "specs:",
  "  - \"<'alice'> G ~'a'\"",
  "  - \"<'alice'> X 'a' & <'bob'> X 'b'\"",
  "  - \"AG EF ('a' & 'b')\""]

def transmission : List String := [
  "name: transmission",
  "description: >",
  "  The sender hands a message over to the transmitter once. The transmitter",
  "  then transmits it or blocks it at each step. The transmitter learns when",
  "  the message is received; the sender never does.",
  "variables:",
  "  sent: boolean",
  "  received: boolean",
  "inputs:",
  "  sender.action: [send, wait]",
  "  transmitter.action: [transmit, block]",
  "init:",
  "  - \"~sent & ~received\"",
  "trans:",
  "  - \"next(sent) <-> (sent | sender.action = send)\"",
  "  - \"next(received) <-> (received | sent & transmitter.action = transmit)\"",
  "agents:",
  "  - name: sender",
  "    observes: [sent]",
  "    actions: [sender.action]",
  "    protocol:",
  "      - \"~sent -> sender.action = send\"",
  "  - name: transmitter",
  "    observes: [sent, received]",
  "    actions: [transmitter.action]",
  "specs:",
  "  - \"<'sender'> G ~'received'\"",
  "  - \"<'transmitter'> G ~'received'\"",
  "  - \"<'sender'> F 'received'\"",
  "  - \"<'transmitter'> F 'received'\"",
  "  - \"<'sender'> X 'received'\"",
  "  - \"<'transmitter'> X ~'received'\"",
  "  - \"AG('received' -> K<'transmitter'> 'received')\"",
  "  - \"AG('received' -> K<'sender'> 'received')\""]

-- A transmitter that passes messages on again and again on fair paths.
def transmissionFair : List String := [
  "name: transmission-fair",
  "description: >",
  "  Transmission with knowledge, where the transmitter transmits infinitely",
  "  often along fair paths. The transmitter remembers its last action.",
  "variables:",
  "  received: boolean",
  "  transmitted: boolean",
  "inputs:",
  "  sender.action: [send, wait]",
  "  transmitter.action: [transmit, block]",
  "init:",
  "  - \"~received & ~transmitted\"",
  "trans:",
  "  - \"next(received) <-> (received | sender.action = send & transmitter.action = transmit)\"",
  "  - \"next(transmitted) <-> transmitter.action = transmit\"",
  "fairness:",
  "  - \"transmitted\"",
  "agents:",
  "  - name: sender",
  "    observes: [received]",
  "    actions: [sender.action]",
  "  - name: transmitter",
  "    observes: [received, transmitted]",
  "    actions: [transmitter.action]",
  "specs:",
  "  - \"<'sender'> F 'received'\"",
  "  - \"<'sender'> G ~'received'\"",
  "  - \"<'transmitter'> G ~'received'\"",
  "  - \"<'sender'> X 'received'\"",
  "  - \"AF 'received'\"",
  "  - \"EF 'received'\""]

def transmissionKnowledge : List String := [
  "name: transmission-knowledge",
  "description: >",
  "  The message is received only when the sender sends and the transmitter",
  "  transmits at the same step. Both agents see whether it was received.",
  "variables:",
  "  received: boolean",
  "inputs:",
  "  sender.action: [send, wait]",
  "  transmitter.action: [transmit, block]",
  "init:",
  "  - \"~received\"",
  "trans:",
  "  - \"next(received) <-> (received | sender.action = send & transmitter.action = transmit)\"",
  "agents:",
  "  - name: sender",
  "    observes: [received]",
  "    actions: [sender.action]",
  "  - name: transmitter",
  "    observes: [received]",
  "    actions: [transmitter.action]",
  "groups:",
  "  both: [sender, transmitter]",
  "specs:",
  "  - \"<'sender'> G ~'received'\"",
  "  - \"<'transmitter'> G ~'received'\"",
  "  - \"<'sender'> F 'received'\"",
  "  - \"<'transmitter'> F 'received'\"",
  "  - \"<'sender'> X 'received'\"",
  "  - \"<'transmitter'> X ~'received'\"",
  "  - \"<'both'> F 'received'\""]

def joinLines (lines : List String) : String := String.join (lines.map (· ++ "\n"))

def models : List (String × List String) := [
  ("cardgame", cardGame),
  ("freechoice", freeChoice),
  ("transmission", transmission),
  ("transmission-fair", transmissionFair),
  ("transmission-knowledge", transmissionKnowledge)]

def names : List String := models.map (·.1)

def source (name : String) : Except Error String :=
  match models.lookup name with
  | some lines => .ok (joinLines lines)
  | none => .error (.unknownModel name names)

end Library

def System.ofText (text : String) : Except Error System := do
  (← Description.ofText text).build

def System.ofLibrary (name : String) : Except Error System := do
  System.ofText (← Library.source name)

end Coalition
