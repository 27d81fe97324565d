import BouchaudOS.Update.Coupures
import BouchaudOS.Update.Sante
import BouchaudOS.Update.Reprise
import BouchaudOS.Update.Signature
import BouchaudOS.Persist.MontageSur
import BouchaudOS.Ramfs.AllerRetour
import BouchaudOS.Persist.Selection
import BouchaudOS.Persist.EcritureDifferee
import BouchaudOS.Memoire.AreneDma
import BouchaudOS.Memoire.Compagnon
import BouchaudOS.Ordonnanceur.Longueur
import BouchaudOS.Ordonnanceur.Equite
import BouchaudOS.Ordonnanceur.Echeances
import BouchaudOS.Memoire.CachePropre
import BouchaudOS.Processus.ElfChargeurs
import BouchaudOS.Memoire.Reservation
import BouchaudOS.Natif.Livraison
import BouchaudOS.Natif.Signaux
import BouchaudOS.Natif.Veille
import BouchaudOS.Descripteurs.Enregistrements
import BouchaudOS.Descripteurs.Entrelacement
import BouchaudOS.Descripteurs.Flux
import BouchaudOS.Descripteurs.Droits
import BouchaudOS.Descripteurs.FinDeFichier
import BouchaudOS.Fat32.Enceinte
import BouchaudOS.Reseau.Prefixe
import BouchaudOS.Reseau.Isolement
import BouchaudOS.Reseau.Reponse
import BouchaudOS.Reseau.Http2
import BouchaudOS.Reseau.AnneauRx
import BouchaudOS.Diagnostic.Lignes
import BouchaudOS.Reseau.Tls.Handshake
import BouchaudOS.Reseau.AnneauRx
import BouchaudOS.Diagnostic.Lignes
