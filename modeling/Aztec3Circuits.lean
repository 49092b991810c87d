import Aztec3Circuits.Folds
import Aztec3Circuits.Composer.RangeConstraint
import Aztec3Circuits.Composer.GateCount
import Aztec3Circuits.Field.Montgomery
import Aztec3Circuits.Field.Endomorphism
import Aztec3Circuits.Field.Conversion
import Aztec3Circuits.Field.Serialize
import Aztec3Circuits.Field.Cast
import Aztec3Circuits.Field.Format
import Aztec3Circuits.Field.Endomorphism384
import Aztec3Circuits.Honk.WorkQueue
import Aztec3Circuits.Honk.QueueRun
import Aztec3Circuits.Permutation.CopyCycles
import Aztec3Circuits.Permutation.Mapping
import Aztec3Circuits.Permutation.Sigma
import Aztec3Circuits.Permutation.Honk
import Aztec3Circuits.Permutation.Generalized
import Aztec3Circuits.Permutation.Lagrange
import Aztec3Circuits.Permutation.Plonk
import Aztec3Circuits.Composer.Tags
import Aztec3Circuits.Composer.TaggedMapping
import Aztec3Circuits.Keccak.Digits
import Aztec3Circuits.Keccak.Spec
import Aztec3Circuits.Keccak.Circuit
import Aztec3Circuits.Keccak.Lanes
import Aztec3Circuits.Keccak.Rotate
import Aztec3Circuits.Keccak.Theta
import Aztec3Circuits.Keccak.Round
import Aztec3Circuits.Keccak.Sponge
import Aztec3Circuits.Keccak.Hash
