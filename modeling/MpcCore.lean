import MpcCore.CircuitLevels
import MpcCore.CircuitSteps
import MpcCore.AdditiveSoundness
import MpcCore.AdditiveRange
import MpcCore.StreamFraming
import MpcCore.SecureHandshake
import MpcCore.HandshakeAgreement
import MpcCore.AdditiveRetry
import MpcCore.ClusterPrivacy
import MpcCore.ClusterBuffers
import MpcCore.MeshFailure
import MpcCore.MeshEstablished
import MpcCore.ExecutionRouting
import MpcCore.Lib.Schedules
import MpcCore.ClusterSchedules
import MpcCore.StreamConversation
import MpcCore.MeshTraffic
import MpcCore.MeshAssembly
import MpcCore.MeshPostcard
import MpcCore.ClusterAdditiveBytes
import MpcCore.ClusterDisagreement
