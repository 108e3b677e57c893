import Pippin.Basic
import Pippin.Bytes
import Pippin.Classifier
import Pippin.Repo
import Pippin.Partitioning
import Pippin.Routing
import Pippin.ClassifierData
import Pippin.Reconcile
import Pippin.Header
import Pippin.Replicas
import Pippin.ReplicaIds
import Pippin.Convergence
import Pippin.ReplicaRouting
import Pippin.Element
