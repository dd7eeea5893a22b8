import MinerGate.Qt.QString

/-!
# The coins of the process

The coins that `init` has made, with what a start has to know of them: the family comes from the
server, and of the coins of the Ethereum family `eth` and `etc` are not to run together.
-/

namespace MinerGate

set_option autoImplicit false

/-- The coins, in the order of their keys. `available` are the keys of the devices for the family
of a coin, `contexts` those of the devices that the coin's miner has a worker for. -/
structure CoinSet where
  m_miners : List QString
  ethereum : QString → Bool
  gpuAvailable : QString → Bool
  available : QString → List QString
  contexts : QString → List QString
  none_without_gpu : ∀ coin, gpuAvailable coin = false → contexts coin = []

namespace CoinSet

/-- Coins for which no card can be used. -/
def withoutGpu (m_miners : List QString) (ethereum : QString → Bool) : CoinSet :=
  ⟨m_miners, ethereum, fun _ => false, fun _ => [], fun _ => [], fun _ _ => rfl⟩

/-- Only one of the two mines at a time. -/
def otherCoinKey (coin : QString) : QString :=
  if coin = "eth".toList then "etc".toList else if coin = "etc".toList then "eth".toList else []

variable (coins : CoinSet)

def minerByCoinKey (coinKey : QString) : Option QString :=
  coins.m_miners.find? fun coin => coin.map Char.toLower = coinKey.map Char.toLower

def otherMiner (coin : QString) : Option QString :=
  if coins.ethereum coin then coins.minerByCoinKey (otherCoinKey coin) else none

/-- An empty key means all devices. -/
def covered (coin deviceKey : QString) : List QString :=
  (coins.contexts coin).filter fun key => deviceKey = [] ∨ key = deviceKey

def devicesForStart (coin deviceKey : QString) : List QString :=
  if deviceKey = [] then coins.available coin else [deviceKey]

end CoinSet
end MinerGate
